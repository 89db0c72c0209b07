import PagedGraph.Proofs.Load.Nulls
import PagedGraph.Proofs.Load.Rearranged

/-!
# Node properties are read back

A column has a slot for every node.  The slot of a node holds the value that the node was added
with, and null where it had none (`Columns.valueAmong_of_mem`): different nodes have different
ids, so no other node writes to it, whatever order they are in.

`Columns.ReadsBack` says so of all keys and all nodes, and says which keys there are, of all nodes
and of the nodes with a label.  Columns are built so (`GraphLoader.build_readsBack`).
-/

namespace PagedGraph

/-- A value over null is itself. -/
theorem Value.over_null (value : Value) : value.over .null = value := by
  cases value <;> rfl

/-- Of things with different keys, one is the only one with its key. -/
theorem filter_eq_singleton {α β : Type} {f : α → β} {p : α → Bool} {xs : List α}
    (hnodup : (xs.map f).Nodup) {x : α} (hx : x ∈ xs) (hp : p x = true)
    (hone : ∀ y ∈ xs, p y = true → f y = f x) : xs.filter p = [x] := by
  refine List.perm_singleton.mp ((List.perm_ext_iff_of_nodup
    ((List.Nodup.of_map f hnodup).filter p) (List.nodup_singleton x)).mpr fun y => ?_)
  rw [List.mem_filter, List.mem_singleton]
  constructor
  · rintro ⟨hy, hpy⟩
    exact List.inj_on_of_nodup_map hnodup hy hx (hone y hy hpy)
  · rintro rfl
    exact ⟨hx, hp⟩

namespace Columns

/-- Of nodes with different ids, each gives its own slot its own value. -/
theorem valueAmong_of_mem {m : Numbering} {nodes : List Node}
    (hnodup : (nodes.map (·.id)).Nodup) {node : Node} (hnode : node ∈ nodes) {i : Nat}
    (hi : m.internalOf? node.id = some i) (key : String) :
    valueAmong m nodes i key = (node.properties.get? key).getD .null := by
  have hfilter : nodes.filter (fun other => m.internalOf? other.id = some i) = [node] := by
    refine filter_eq_singleton hnodup hnode (decide_eq_true hi) fun other _ hother => ?_
    have hother := (m.internalOf?_eq_some_iff).mp (of_decide_eq_true hother)
    exact Option.some.inj (hother.symm.trans ((m.internalOf?_eq_some_iff).mp hi))
  rw [valueAmong, hfilter, List.foldl_cons, List.foldl_nil, entryOver, Properties.get?]
  cases node.properties.entries.lookup key with
  | none => rfl
  | some value => exact value.over_null

/-- Columns over a numbering read back the properties of some nodes. -/
structure ReadsBack (s : Columns) (m : Numbering) (nodes : List Node) : Prop where
  nodeCount : m.nodeCount = nodes.length
  /-- Every node has an internal id, and its values are read at it. -/
  exists_internal : ∀ node ∈ nodes, ∃ i, m.internalOf? node.id = some i ∧
    ∀ {key c}, s.get? key = some c → c.value i = (node.properties.get? key).getD .null
  /-- The keys are those under which some node has a value. -/
  mem_keys : ∀ {key}, key ∈ s.keys ↔
    ∃ node ∈ nodes, ∃ value, node.properties.get? key = some value ∧ value ≠ .null
  exists_column : ∀ {key}, (∃ c, s.get? key = some c) ↔ key ∈ s.keys
  /-- A column has a slot for every node, and the kind of all values under its key. -/
  column : ∀ {key c}, s.get? key = some c → c.size = m.nodeCount ∧
    ∀ node ∈ nodes, ∀ {value}, node.properties.get? key = some value → value ≠ .null →
      value.kind? = some c.kind
  /-- The keys of a label are those of the nodes with it, null or not. -/
  mem_keysOf : ∀ {label key}, key ∈ s.keysOf label ↔
    ∃ node ∈ nodes, label ∈ node.labels ∧ key ∈ node.properties.keys
  sorted_keysOf : ∀ label, (s.keysOf label).Pairwise (· ≤ ·) ∧ (s.keysOf label).Nodup
  keysOf_subset : ∀ {label key}, key ∈ s.keysOf label → key ∈ s.keys

/-- Filled columns whose kinds are those of the values read back the nodes. -/
theorem Filled.readsBack {s : Columns} {m : Numbering} {kinds : List (String × ValueKind)}
    {nodes : List Node} (h : s.Filled m kinds nodes)
    (hids : m.externalIds.toList.Perm (nodes.map (·.id)))
    (hkinds : ∀ {key kind}, kinds.lookup key = some kind ↔ KindGiven nodes key kind)
    (hknown : ∀ node ∈ nodes, ∀ key ∈ node.properties.keys, key ∈ PagedGraph.names kinds) :
    s.ReadsBack m nodes := by
  have hnodup : (nodes.map (·.id)).Nodup :=
    hids.nodup_iff.mp (nodup_of_ascending m.ascending)
  have hkeys : ∀ {key}, key ∈ s.keys ↔ ∃ kind, KindGiven nodes key kind := fun {key} => by
    rw [keys, mem_sortedNames, h.hold.names, PagedGraph.mem_names_iff]
    exact exists_congr fun _ => hkinds
  have hcolumn : ∀ {key c}, s.get? key = some c → ∃ kind, KindGiven nodes key kind ∧
      c.kind = kind ∧ c.size = m.nodeCount ∧
      ∀ i < m.nodeCount, c.value i = valueAmong m nodes i key := by
    intro key c hc
    have hkey : key ∈ s.keys := mem_sortedNames.mpr (PagedGraph.mem_names_iff.mpr ⟨c, hc⟩)
    obtain ⟨kind, hgiven⟩ := hkeys.mp hkey
    obtain ⟨c', hc', hcolumn⟩ := h.hold.column (hkinds.mpr hgiven)
    cases hc.symm.trans hc'
    exact ⟨kind, hgiven, hcolumn⟩
  constructor
  case nodeCount =>
    have hlength := hids.length_eq
    rwa [List.length_map] at hlength
  case exists_internal =>
    intro node hnode
    have hexternal : node.id ∈ m.externalIds.toList := hids.mem_iff.mpr (List.mem_map_of_mem hnode)
    obtain ⟨i, hi⟩ := Array.mem_iff_getElem?.mp (Array.mem_toList_iff.mp hexternal)
    refine ⟨i, (m.internalOf?_eq_some_iff).mpr hi, fun {key c} hc => ?_⟩
    obtain ⟨-, -, -, -, hvalue⟩ := hcolumn hc
    rw [hvalue i (Array.getElem?_eq_some_iff.mp hi).1]
    exact valueAmong_of_mem hnodup hnode ((m.internalOf?_eq_some_iff).mpr hi) key
  case mem_keys =>
    intro key
    rw [hkeys]
    constructor
    · rintro ⟨kind, node, hnode, value, hvalue, hkind⟩
      refine ⟨node, hnode, value, hvalue, ?_⟩
      rintro rfl
      cases hkind
    · rintro ⟨node, hnode, value, hvalue, hnull⟩
      obtain ⟨kind, hkind⟩ := Value.exists_kind? hnull
      exact ⟨kind, node, hnode, value, hvalue, hkind⟩
  case exists_column =>
    intro key
    rw [keys, mem_sortedNames, PagedGraph.mem_names_iff]
    rfl
  case column =>
    intro key c hc
    obtain ⟨kind, hgiven, rfl, hsize, -⟩ := hcolumn hc
    refine ⟨hsize, fun node hnode {value} hvalue hnull => ?_⟩
    obtain ⟨got, hgot⟩ := Value.exists_kind? hnull
    rw [hgot]
    -- A key has one known kind, so all that its nodes give is this one.
    exact (hkinds.mpr ⟨node, hnode, value, hvalue, hgot⟩).symm.trans (hkinds.mpr hgiven)
  case mem_keysOf => exact h.mem_keysOf
  case sorted_keysOf =>
    exact fun label => ⟨(pairwise_sortedNames _).imp And.left, nodup_sortedNames _⟩
  case keysOf_subset =>
    intro label key hkey
    obtain ⟨node, hnode, -, hkey⟩ := h.mem_keysOf.mp hkey
    rw [keys, mem_sortedNames, h.hold.names]
    exact hknown node hnode key hkey

end Columns

namespace GraphLoader

/-- Node properties are read back.  Whatever calls a graph is built of, in whatever order their
nodes are, each value is read at the internal id of the node it was added with, and at every other
slot null. -/
theorem build_readsBack {c : LoadSettings} {new : GraphLoader} (hnew : create c = .ok new)
    {calls : List LoadCall} (haccepts : new.Accepts calls) {b : GraphLoader}
    (hb : (new.run calls).Reordered b) {identity : Nat} {g : PropertyGraph}
    (hg : b.build identity = .ok g) : g.columns.ReadsBack g.numbering (nodesOf calls) := by
  have h := gathers_of_accepts hnew haccepts hb
  have hkeys := h.keysValued hg
  obtain ⟨-, hm, -⟩ := of_build_eq_ok hg
  have hfilled := h.consistent.filled_of_build hkeys hg
  have hids := (Numbering.numbers_of_build_eq_ok hm).perm_externalIds
    (Numbering.nodup_of_build_eq_ok hm)
  rw [List.map_map, h.nodes] at hids
  rw [h.nodes] at hfilled
  refine hfilled.readsBack hids h.kinds fun node hnode key hkey => ?_
  obtain ⟨other, hother, value, hvalue, hnull⟩ :=
    hkeys node (Array.mem_toList_iff.mp (h.nodes ▸ hnode)) key hkey
  obtain ⟨kind, hkind⟩ := Value.exists_kind? hnull
  exact PagedGraph.mem_names_iff.mpr ⟨kind, h.consistent.kinds hother hvalue hkind⟩

/-- A key is valued if the kind of one of its values can be told. -/
theorem exists_value_iff {nodes : List Node} {key : String} :
    (∃ node ∈ nodes, ∃ value, node.properties.get? key = some value ∧ value ≠ .null) ↔
      ∃ node ∈ nodes, ((node.properties.get? key).bind Value.kind?).isSome = true := by
  refine exists_congr fun node => and_congr_right fun _ => ?_
  cases node.properties.get? key with
  | none => exact iff_of_false nofun nofun
  | some value => cases value <;> simp [Value.kind?]

/-- The least integer, a not-a-number with bits of its own, an empty list and a null, on two nodes
that are not in the order of their ids. -/
def extremeCalls : List LoadCall :=
  [.node ⟨9, ["B"], .ofList [("i", .int (-0x8000000000000000)), ("l", .intList [])]⟩,
    .node ⟨4, ["A", "B"], .ofList [("i", .null), ("x", .float ⟨0xfff0000000000001⟩)]⟩]

/-- The integer and the bits are read as they were given, and the empty list is a value. -/
theorem build_readsBack_extreme : ∃ g nine four,
    (run { workers := 1 } extremeCalls).build 0 = .ok g ∧
    g.numbering.internalOf? 9 = some nine ∧ g.numbering.internalOf? 4 = some four ∧
    (∃ c, g.columns.get? "i" = some c ∧ c.value nine = .int (-0x8000000000000000) ∧
      c.value four = .null) ∧
    (∃ c, g.columns.get? "l" = some c ∧ c.value nine = .intList [] ∧ c.value four = .null) ∧
    (∃ c, g.columns.get? "x" = some c ∧ c.value nine = .null ∧
      c.value four = .float ⟨0xfff0000000000001⟩) ∧
    "i" ∈ g.columns.keysOf "A" ∧ "l" ∉ g.columns.keysOf "A" := by
  have hnew : create ⟨1⟩ = .ok { workers := 1 } := rfl
  have hcalls : Accepts { workers := 1 } extremeCalls := ⟨rfl, rfl, trivial⟩
  have hloads := loads_run hnew hcalls
  have hkeys : (run { workers := 1 } extremeCalls).KeysValued := by
    intro node hnode key hkey
    have hvalued : ∀ node ∈ nodesOf extremeCalls, ∀ key ∈ node.properties.keys,
        ∃ other ∈ nodesOf extremeCalls,
          ((other.properties.get? key).bind Value.kind?).isSome = true := by
      decide
    obtain ⟨other, hother, hvalue⟩ := exists_value_iff.mpr
      (hvalued node (hloads.nodes ▸ Array.mem_toList_iff.mpr hnode) key hkey)
    exact ⟨other, Array.mem_toList_iff.mp (hloads.nodes ▸ hother), hvalue⟩
  have hbuild : ∃ g, (run { workers := 1 } extremeCalls).build 0 = .ok g :=
    (Reached.consistent ⟨⟨1⟩, _, _, rfl, rfl⟩).exists_build hkeys (by decide)
      (fun ⟨rs, hentry, _⟩ => by cases hentry) (not_crowded_of_size_lt (by decide)) 0
  obtain ⟨g, hg⟩ := hbuild
  have hreads := build_readsBack hnew hcalls (.refl _) hg
  obtain ⟨nine, hnine, hvalues⟩ := hreads.exists_internal
    ⟨9, ["B"], .ofList [("i", .int (-0x8000000000000000)), ("l", .intList [])]⟩ (by decide)
  obtain ⟨four, hfour, hvalues'⟩ := hreads.exists_internal
    ⟨4, ["A", "B"], .ofList [("i", .null), ("x", .float ⟨0xfff0000000000001⟩)]⟩ (by decide)
  have hcolumn : ∀ key ∈ ["i", "l", "x"], ∃ c, g.columns.get? key = some c := by
    have hvalued : ∀ key ∈ ["i", "l", "x"], ∃ node ∈ nodesOf extremeCalls,
        ((node.properties.get? key).bind Value.kind?).isSome = true := by
      decide
    intro key hkey
    rw [hreads.exists_column, hreads.mem_keys, exists_value_iff]
    exact hvalued key hkey
  refine ⟨g, nine, four, hg, hnine, hfour, ?_, ?_, ?_, ?_, ?_⟩
  · obtain ⟨c, hc⟩ := hcolumn "i" (by decide)
    exact ⟨c, hc, hvalues hc, hvalues' hc⟩
  · obtain ⟨c, hc⟩ := hcolumn "l" (by decide)
    exact ⟨c, hc, hvalues hc, hvalues' hc⟩
  · obtain ⟨c, hc⟩ := hcolumn "x" (by decide)
    exact ⟨c, hc, hvalues hc, hvalues' hc⟩
  · rw [hreads.mem_keysOf]
    decide
  · rw [hreads.mem_keysOf]
    decide

end GraphLoader

end PagedGraph
