/-!
# Named things

A list of pairs stands for a table of named things, in the order the names came up.
`List.lookup` reads it.  `upsert` changes the thing of one name in its place, or adds
it at the end.
-/

namespace PagedGraph

/-- Change the thing of a name, or make one. -/
def upsert {α : Type} (name : String) (f : Option α → α) : List (String × α) → List (String × α)
  | [] => [(name, f none)]
  | (n, thing) :: rest =>
    if n = name then (n, f (some thing)) :: rest else (n, thing) :: upsert name f rest

/-- The names of a table, in order. -/
def names {α : Type} (things : List (String × α)) : List String := things.map (·.1)

/-- A list of names sorted by code points, without repetitions. -/
def sortedNames (names : List String) : List String := names.mergeSort.eraseDups

/-- The things of a table, sorted by name. -/
def sortedByName {α : Type} (things : List (String × α)) : List (String × α) :=
  things.mergeSort fun a b => a.1 ≤ b.1

@[simp] theorem mem_sortedNames {name : String} {names : List String} :
    name ∈ sortedNames names ↔ name ∈ names := by simp [sortedNames]

/-- What stands in order without repetitions is different from what is behind it. -/
theorem pairwise_eraseDups {α : Type} [DecidableEq α] {r : α → α → Prop} {xs : List α}
    (h : xs.Pairwise r) : xs.eraseDups.Pairwise fun a b => r a b ∧ a ≠ b := by
  match xs with
  | [] => exact .nil
  | x :: rest =>
    obtain ⟨hx, hrest⟩ := List.pairwise_cons.mp h
    rw [List.eraseDups_cons]
    refine List.pairwise_cons.mpr ⟨fun y hy => ?_, pairwise_eraseDups (hrest.filter _)⟩
    obtain ⟨hmem, hne⟩ := List.mem_filter.mp (List.mem_eraseDups.mp hy)
    exact ⟨hx y hmem, fun heq => by simp [heq] at hne⟩
termination_by xs.length
decreasing_by exact Nat.lt_succ_of_le (List.length_filter_le ..)

theorem pairwise_sortedNames (names : List String) :
    (sortedNames names).Pairwise fun a b => a ≤ b ∧ a ≠ b := by
  refine pairwise_eraseDups ((List.pairwise_mergeSort (fun a b c hab hbc => ?_)
    (fun a b => ?_) names).imp fun hab => of_decide_eq_true hab)
  · exact decide_eq_true (String.le_trans (of_decide_eq_true hab) (of_decide_eq_true hbc))
  · simpa using String.le_total a b

theorem nodup_sortedNames (names : List String) : (sortedNames names).Nodup :=
  (pairwise_sortedNames names).imp And.right

/-- Sorted names are told by which names they are. -/
theorem sortedNames_eq {xs ys : List String} (h : ∀ name, name ∈ xs ↔ name ∈ ys) :
    sortedNames xs = sortedNames ys := by
  have hperm : (sortedNames xs).Perm (sortedNames ys) :=
    (List.perm_ext_iff_of_nodup (nodup_sortedNames xs) (nodup_sortedNames ys)).mpr fun name => by
      rw [mem_sortedNames, mem_sortedNames, h]
  exact hperm.eq_of_pairwise (fun _ _ _ _ hab hba => String.le_antisymm hab.1 hba.1)
    (pairwise_sortedNames xs) (pairwise_sortedNames ys)

@[simp] theorem lookup_upsert_self {α : Type} (name : String) (f : Option α → α)
    (things : List (String × α)) :
    (upsert name f things).lookup name = some (f (things.lookup name)) := by
  induction things with
  | nil => simp [upsert]
  | cons entry rest ih =>
    obtain ⟨n, thing⟩ := entry
    by_cases h : n = name
    · simp [upsert, h]
    · have hb : (name == n) = false := by simpa using fun e => h e.symm
      simp [upsert, h, List.lookup_cons, hb, ih]

theorem lookup_upsert_of_ne {α : Type} {name other : String} (h : other ≠ name)
    (f : Option α → α) (things : List (String × α)) :
    (upsert name f things).lookup other = things.lookup other := by
  have hb : (other == name) = false := by simpa using h
  induction things with
  | nil => simp [upsert, List.lookup_cons, hb]
  | cons entry rest ih =>
    obtain ⟨n, thing⟩ := entry
    by_cases hn : n = name
    · simp [upsert, hn, List.lookup_cons, hb]
    · simp [upsert, hn, List.lookup_cons, ih]

/-- The names of a table are those that have a thing. -/
theorem mem_names_iff {α : Type} {things : List (String × α)} {name : String} :
    name ∈ names things ↔ ∃ thing, things.lookup name = some thing := by
  rw [← Option.isSome_iff_exists, List.lookup_isSome_iff, names, List.mem_map]
  simp only [beq_iff_eq, eq_comm (a := name)]

theorem lookup_eq_none_iff {α : Type} {things : List (String × α)} {name : String} :
    things.lookup name = none ↔ name ∉ names things := by
  rw [mem_names_iff, Option.eq_none_iff_forall_ne_some, not_exists]

theorem lookup_cons {α : Type} (n : String) (thing : α) (rest : List (String × α))
    (name : String) :
    ((n, thing) :: rest).lookup name = if name = n then some thing else rest.lookup name := by
  rw [List.lookup_cons]
  by_cases h : name = n
  · rw [if_pos h, beq_iff_eq.mpr h]
  · rw [if_neg h, beq_eq_false_iff_ne.mpr h]

theorem mem_of_lookup {α : Type} {things : List (String × α)} {name : String} {thing : α}
    (h : things.lookup name = some thing) : (name, thing) ∈ things := by
  induction things with
  | nil => cases h
  | cons entry rest ih =>
    obtain ⟨n, other⟩ := entry
    rw [lookup_cons] at h
    split at h
    · next hname =>
      cases h
      rw [hname]
      exact List.mem_cons_self
    · exact List.mem_cons_of_mem _ (ih h)

/-- Where the names are different, a name has the thing it stands with. -/
theorem lookup_eq_some_iff {α : Type} {things : List (String × α)} (h : (names things).Nodup)
    {name : String} {thing : α} : things.lookup name = some thing ↔ (name, thing) ∈ things := by
  induction things with
  | nil => simp
  | cons entry rest ih =>
    obtain ⟨n, other⟩ := entry
    obtain ⟨hnew, hrest⟩ := List.nodup_cons.mp h
    rw [lookup_cons, List.mem_cons, Prod.mk.injEq]
    by_cases hname : name = n
    · have hout : (n, thing) ∉ rest := fun hmem => hnew (List.mem_map.mpr ⟨_, hmem, rfl⟩)
      simp [hname, hout, eq_comm]
    · simp [hname, ih hrest]

/-- A name that is there stays in its place, and a new one comes last. -/
theorem names_upsert {α : Type} (name : String) (f : Option α → α) (things : List (String × α)) :
    names (upsert name f things) =
      if name ∈ names things then names things else names things ++ [name] := by
  induction things with
  | nil => simp [upsert, names]
  | cons entry rest ih =>
    obtain ⟨n, thing⟩ := entry
    by_cases h : n = name
    · simp [upsert, names, h]
    · have hne : ¬ name = n := fun e => h e.symm
      have hcons :
          names (upsert name f ((n, thing) :: rest)) = n :: names (upsert name f rest) := by
        simp [upsert, h, names]
      have hmem : name ∈ names ((n, thing) :: rest) ↔ name ∈ names rest := by simp [names, hne]
      rw [hcons, ih]
      by_cases hr : name ∈ names rest
      · rw [if_pos hr, if_pos (hmem.mpr hr)]
        rfl
      · rw [if_neg hr, if_neg (mt hmem.mp hr)]
        rfl

/-- Names stay different from each other. -/
theorem nodup_names_upsert {α : Type} {things : List (String × α)} (h : (names things).Nodup)
    (name : String) (f : Option α → α) : (names (upsert name f things)).Nodup := by
  rw [names_upsert]
  split
  · exact h
  · next hn =>
    refine List.nodup_append.mpr ⟨h, by simp, fun a ha b hb => ?_⟩
    rintro rfl
    exact hn (by simpa [List.mem_singleton.mp hb] using ha)

end PagedGraph
