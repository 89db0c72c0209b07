import PagedGraph.Proofs.Numbering.Select

/-!
# Numbering nodes

`Numbering.build` sorts the entries it is given and numbers them.  `Numbering.Carries m entries`
says what `m` is then: its nodes are the entries in ascending order of their external ids, the two
look-ups are inverse to each other, and every way to ask for labels tells which labels an entry
was given (`Numbering.Carries.of_numbers`).

An external id that is given twice is refused.  Of several such ids the least is named, since the
sorted ids are looked at from the front (`Numbering.firstRepeated_spec`).  Neither the numbering nor
the error depends on the order of the entries.  `Numbering.build_decides` has all of this.
-/

namespace PagedGraph

namespace Numbering

/-! ## Repeated ids -/

/-- The first repeated number of an ascending list is the least that occurs twice. -/
theorem firstRepeated_spec {ids : List Nat} (hle : ids.Pairwise (· ≤ ·)) {id : Nat}
    (h : firstRepeated ids = some id) :
    1 < ids.count id ∧ ∀ other, 1 < ids.count other → id ≤ other := by
  induction ids with
  | nil => cases h
  | cons x rest ih =>
    obtain ⟨hx, hrest⟩ := List.pairwise_cons.mp hle
    cases rest with
    | nil => cases h
    | cons y rest =>
      rw [firstRepeated] at h
      split at h
      · next hxy =>
        cases h
        subst hxy
        refine ⟨by simp, fun other hother => ?_⟩
        have hmem : other ∈ id :: id :: rest := List.count_pos_iff.mp (by omega)
        rcases List.mem_cons.mp hmem with rfl | hmem
        · exact Nat.le_refl _
        · exact hx other hmem
      · next hne =>
        obtain ⟨htwice, hleast⟩ := ih hrest h
        have hlt : ∀ z ∈ y :: rest, x < z := by
          have hxy : x < y := Nat.lt_of_le_of_ne (hx y List.mem_cons_self) hne
          refine List.forall_mem_cons.mpr ⟨hxy, fun z hz => ?_⟩
          exact Nat.lt_of_lt_of_le hxy ((List.pairwise_cons.mp hrest).1 z hz)
        have hnew : (y :: rest).count x = 0 :=
          List.count_eq_zero.mpr fun hmem => Nat.lt_irrefl x (hlt x hmem)
        -- the number in front occurs once, so it is none of those that occur twice
        have hcount : ∀ {z}, 1 < (x :: y :: rest).count z → 1 < (y :: rest).count z := by
          intro z hz
          rw [List.count_cons] at hz
          split at hz
          · next hxz =>
            rw [← beq_iff_eq.mp hxz, hnew] at hz
            omega
          · exact hz
        refine ⟨Nat.lt_of_lt_of_le htwice ?_, fun other hother => hleast other (hcount hother)⟩
        rw [List.count_cons (b := x)]
        exact Nat.le_add_right ..

/-- Entries that repeat an external id are not numbered, and the least repeated id is named. -/
theorem build_repeated {entries : List NodeEntry} (h : ¬ (entries.map (·.1)).Nodup)
    (identity : Nat) : ∃ id, build identity entries = .error (.repeatedNode id) ∧
      1 < (entries.map (·.1)).count id ∧
      ∀ other, 1 < (entries.map (·.1)).count other → id ≤ other := by
  have hcount := (sortIds_perm (entries.map (·.1))).count_eq
  rw [build]
  split
  · next id hid =>
    obtain ⟨htwice, hleast⟩ := firstRepeated_spec (pairwise_sortIds _) hid
    exact ⟨id, rfl, hcount id ▸ htwice, fun other hother => hleast other (hcount other ▸ hother)⟩
  · next hnone =>
    refine absurd ((sortIds_perm (entries.map (·.1))).nodup_iff.mp ?_) h
    exact nodup_of_ascending (ascending_of_firstRepeated_eq_none (pairwise_sortIds _) hnone)

/-! ## What a numbering carries -/

/-- Some entry with the external id of a node has a label. -/
def Given (m : Numbering) (entries : List NodeEntry) (node : Nat) (label : String) : Prop :=
  ∃ entry ∈ entries, m.externalOf? node = some entry.1 ∧ label ∈ entry.2

/-- The nodes of a numbering are some entries, in ascending order of their external ids and with
their labels. -/
structure Carries (m : Numbering) (entries : List NodeEntry) : Prop where
  nodeCount : m.nodeCount = entries.length
  isSome_externalOf? : ∀ node, (m.externalOf? node).isSome ↔ node < m.nodeCount
  ascending : ∀ {i j x y}, i < j → m.externalOf? i = some x → m.externalOf? j = some y → x < y
  internalOf? : ∀ {node external}, m.externalOf? node = some external →
    m.internalOf? external = some node
  isSome_internalOf? : ∀ external,
    (m.internalOf? external).isSome ↔ external ∈ entries.map (·.1)
  contains : ∀ external, m.contains external = true ↔ external ∈ entries.map (·.1)
  externalOf? : ∀ {external node}, m.internalOf? external = some node →
    m.externalOf? node = some external
  highestExternal? : m.highestExternal? = (entries.map (·.1)).max?
  hasLabel : ∀ node label, m.hasLabel node label = true ↔ m.Given entries node label
  /-- The labels of a node are sorted, and none is there twice. -/
  labelsOf : ∀ node, (m.labelsOf node).Pairwise (fun a b => a ≤ b ∧ a ≠ b) ∧
    ∀ label, label ∈ m.labelsOf node ↔ m.Given entries node label
  /-- The nodes with a label are ascending, and none is there twice. -/
  nodesWith? : ∀ {label nodes}, m.nodesWith? label = some nodes →
    nodes.Pairwise (· < ·) ∧ ∀ node, node ∈ nodes ↔ m.Given entries node label
  nodesWith?_eq_none : ∀ label, m.nodesWith? label = none ↔ ∀ entry ∈ entries, label ∉ entry.2

variable {m : Numbering} {entries entries' : List NodeEntry}

/-- The largest external id is that of the last node. -/
theorem highestExternal?_eq_max? (m : Numbering) :
    m.highestExternal? = m.externalIds.toList.max? := by
  rw [highestExternal?, ← Array.getLast?_toList]
  cases hlast : m.externalIds.toList.getLast? with
  | none => rw [List.getLast?_eq_none_iff.mp hlast, List.max?_nil]
  | some last =>
    obtain ⟨front, hfront⟩ := List.getLast?_eq_some_iff.mp hlast
    refine (List.max?_eq_some_iff.mpr ⟨List.mem_of_getLast? hlast, fun other hother => ?_⟩).symm
    have hascending := m.ascending
    rw [hfront, List.pairwise_append] at hascending
    rw [hfront, List.mem_append, List.mem_singleton] at hother
    rcases hother with hother | rfl
    · exact Nat.le_of_lt (hascending.2.2 other hother last (List.mem_singleton_self _))
    · exact Nat.le_refl _

theorem max?_eq_of_perm {xs ys : List Nat} (h : xs.Perm ys) : xs.max? = ys.max? := by
  cases hxs : xs.max? with
  | none =>
    obtain rfl := List.max?_eq_none_iff.mp hxs
    rw [List.nil_perm.mp h, List.max?_nil]
  | some x =>
    obtain ⟨hmem, hle⟩ := List.max?_eq_some_iff.mp hxs
    exact (List.max?_eq_some_iff.mpr ⟨h.mem_iff.mp hmem, fun y hy => hle y (h.mem_iff.mpr hy)⟩).symm

/-- The external ids of a numbering are those of the entries. -/
theorem Numbers.perm_externalIds (h : m.Numbers entries) (hnodup : (entries.map (·.1)).Nodup) :
    m.externalIds.toList.Perm (entries.map (·.1)) := by
  refine (List.perm_ext_iff_of_nodup (nodup_of_ascending m.ascending) hnodup).mpr fun external => ?_
  rw [← h.exists_iff, Array.mem_toList_iff, Array.mem_iff_getElem?]
  rfl

/-- A node has the labels of its entry, and what is no node has none. -/
theorem Numbers.hasLabel_iff (h : m.Numbers entries) (node : Nat) (label : String) :
    m.hasLabel node label = true ↔ m.Given entries node label := by
  constructor
  · intro hlabel
    have hnode : node < m.nodeCount := by
      refine Nat.lt_of_not_le fun hle => ?_
      simp [hasLabel_eq_false_of_le hle] at hlabel
    obtain ⟨own, hown, hlabels⟩ := h.exists_entry (Array.getElem?_eq_getElem hnode)
    refine ⟨_, hown, Array.getElem?_eq_getElem hnode, ?_⟩
    simpa [hlabels] using hlabel
  · rintro ⟨entry, hentry, hnode, hlabel⟩
    simpa [h.hasLabel hentry hnode label] using hlabel

/-- Some node has a label if some entry has it. -/
theorem Numbers.knowsLabel_iff (h : m.Numbers entries) (label : String) :
    m.knowsLabel label = true ↔ ∃ entry ∈ entries, label ∈ entry.2 := by
  rw [Numbering.knowsLabel_iff]
  constructor
  · rintro ⟨node, -, hlabel⟩
    obtain ⟨entry, hentry, -, hlabel⟩ := (h.hasLabel_iff node label).mp hlabel
    exact ⟨entry, hentry, hlabel⟩
  · rintro ⟨entry, hentry, hlabel⟩
    obtain ⟨node, hnode⟩ := h.exists_iff.mpr (List.mem_map_of_mem hentry)
    exact ⟨node, (Array.getElem?_eq_some_iff.mp hnode).1,
      (h.hasLabel_iff node label).mpr ⟨entry, hentry, hnode, hlabel⟩⟩

/-- A numbering of different entries carries these entries. -/
theorem Carries.of_numbers (h : m.Numbers entries) (hnodup : (entries.map (·.1)).Nodup) :
    m.Carries entries := by
  have hperm := h.perm_externalIds hnodup
  have hsome : ∀ external, (m.internalOf? external).isSome ↔ external ∈ entries.map (·.1) := by
    intro external
    rw [← h.exists_iff, Option.isSome_iff_exists]
    exact exists_congr fun node => m.internalOf?_eq_some_iff
  constructor
  case nodeCount => simpa [Numbering.nodeCount] using hperm.length_eq
  case isSome_externalOf? =>
    intro node
    simp [Numbering.externalOf?, Numbering.nodeCount]
  case ascending =>
    intro i j x y hij hi hj
    obtain ⟨hlti, rfl⟩ := Array.getElem?_eq_some_iff.mp hi
    obtain ⟨hltj, rfl⟩ := Array.getElem?_eq_some_iff.mp hj
    exact List.pairwise_iff_getElem.mp m.ascending i j hlti hltj hij
  case internalOf? => exact (m.internalOf?_eq_some_iff).mpr
  case isSome_internalOf? => exact hsome
  case contains => exact hsome
  case externalOf? => exact (m.internalOf?_eq_some_iff).mp
  case highestExternal? => rw [highestExternal?_eq_max?, max?_eq_of_perm hperm]
  case hasLabel => exact h.hasLabel_iff
  case labelsOf =>
    intro node
    exact ⟨m.pairwise_labelsOf node, fun label => mem_labelsOf.trans (h.hasLabel_iff node label)⟩
  case nodesWith? =>
    intro label nodes hnodes
    obtain ⟨hascending, hmem⟩ := of_nodesWith?_eq_some hnodes
    exact ⟨hascending, fun node => (hmem node).trans (h.hasLabel_iff node label)⟩
  case nodesWith?_eq_none =>
    intro label
    rw [nodesWith?_eq_none_iff, Bool.eq_false_iff, ne_eq, h.knowsLabel_iff]
    simp only [not_exists, not_and]

/-! ## Building -/

/-- What is numbered carries its entries. -/
theorem carries_of_build_eq_ok {identity : Nat} (h : build identity entries = .ok m) :
    m.Carries entries :=
  .of_numbers (numbers_of_build_eq_ok h) (nodup_of_build_eq_ok h)

/-- The least number that occurs twice does not depend on the order. -/
theorem build_eq_of_perm_of_repeated {identity : Nat} (h : ¬ (entries.map (·.1)).Nodup)
    (hperm : entries.Perm entries') : build identity entries' = build identity entries := by
  have hids := hperm.map (·.1)
  obtain ⟨id, hid, htwice, hleast⟩ := build_repeated h identity
  obtain ⟨id', hid', htwice', hleast'⟩ := build_repeated (mt hids.nodup_iff.mpr h) identity
  rw [← hids.count_eq] at htwice'
  have hle := hleast' id (hids.count_eq id ▸ htwice)
  rw [hid, hid', Nat.le_antisymm hle (hleast id' htwice')]

/-- Numbering nodes fails if and only if some external id is given twice, and then it names the
least such id.  Otherwise it gives a numbering that carries the entries.  The result is the same for
the entries in any order. -/
theorem build_decides (identity : Nat) (entries : List NodeEntry) :
    ((∃ id, 1 < (entries.map (·.1)).count id) ↔ ∃ e, build identity entries = .error e) ∧
    (∀ {e}, build identity entries = .error e → ∃ id, e = .repeatedNode id ∧
      1 < (entries.map (·.1)).count id ∧
      ∀ other, 1 < (entries.map (·.1)).count other → id ≤ other) ∧
    (∀ {m}, build identity entries = .ok m → m.Carries entries) ∧
    ∀ {entries'}, entries.Perm entries' → build identity entries' = build identity entries := by
  have hnodup : (entries.map (·.1)).Nodup ↔ ¬ ∃ id, 1 < (entries.map (·.1)).count id := by
    rw [List.nodup_iff_count_le_one, not_exists]
    exact forall_congr' fun id => Nat.not_lt.symm
  have hrefused : ∀ {e}, build identity entries = .error e → ¬ (entries.map (·.1)).Nodup := by
    intro e he h
    obtain ⟨m, hm⟩ := exists_build_eq_ok h identity
    rw [he] at hm
    cases hm
  refine ⟨⟨fun hid => ?_, fun ⟨e, he⟩ => ?_⟩, fun {e} he => ?_, carries_of_build_eq_ok,
    fun {entries'} hperm => ?_⟩
  · obtain ⟨id, herror, -⟩ := build_repeated (fun h => hnodup.mp h hid) identity
    exact ⟨_, herror⟩
  · exact not_not.mp (mt hnodup.mpr (hrefused he))
  · obtain ⟨id, herror, hleast⟩ := build_repeated (hrefused he) identity
    rw [herror] at he
    cases he
    exact ⟨id, rfl, hleast⟩
  · by_cases h : (entries.map (·.1)).Nodup
    · obtain ⟨m, hm⟩ := exists_build_eq_ok h identity
      obtain ⟨hascending, rfl⟩ := build_eq_ok_iff.mp hm
      exact (build_eq_of_perm hm hperm identity).trans hm.symm
    · exact build_eq_of_perm_of_repeated h hperm

/-- Three nodes in no order, one of which is given a label twice. -/
theorem build_decides_unsorted : ∃ m,
    build 0 [(9, ["B", "A", "B"]), (4, ["A"]), (7, [])] = .ok m ∧
    build 0 [(7, []), (9, ["B", "A", "B"]), (4, ["A"])] = .ok m ∧
    m.Carries [(9, ["B", "A", "B"]), (4, ["A"]), (7, [])] ∧
    build 0 [(9, []), (4, []), (7, []), (9, []), (7, ["A"])] = .error (.repeatedNode 7) := by
  obtain ⟨hfails, -, hcarries, hperm⟩ :=
    build_decides 0 [(9, ["B", "A", "B"]), (4, ["A"]), (7, [])]
  have hnodup : ([(9, ["B", "A", "B"]), (4, ["A"]), (7, [])].map (·.1) : List Nat).Nodup := by
    decide
  obtain ⟨m, hm⟩ := exists_build_eq_ok hnodup 0
  obtain ⟨hfails', hleast, -⟩ := build_decides 0 [(9, []), (4, []), (7, []), (9, []), (7, ["A"])]
  obtain ⟨e, he⟩ := hfails'.mp ⟨9, by decide⟩
  obtain ⟨id, rfl, htwice, hid⟩ := hleast he
  have hle : id ≤ 7 := hid 7 (by decide)
  have hge : 7 ≤ id := Nat.le_of_not_lt fun hlt =>
    (by decide : ∀ id < 7, ¬ 1 < [9, 4, 7, 9, 7].count id) id hlt htwice
  obtain rfl := Nat.le_antisymm hle hge
  exact ⟨m, hm, (hperm (by decide)).trans hm, hcarries hm, he⟩

end Numbering

end PagedGraph
