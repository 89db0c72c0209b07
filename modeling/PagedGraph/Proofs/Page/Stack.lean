import PagedGraph.Number.Sum
import PagedGraph.Proofs.Page.Reserve

/-!
# Handles of a page

A `Handle` is a reserved run: the worker it was reserved for, its offset and its bytes.
The handles of a page stand in it back to back, in the order they were reserved.
`Stacked place handles bytes` says so of the bytes from a place on.

Of stacked handles each lies where its offset says (`Stacked.exists_around`), an earlier one
ends before a later one starts (`Stacked.pairwise`), and every byte belongs to one of them
(`Stacked.exists_owner`).  A stack grows at its top (`Stacked.append`), and writing over one
handle leaves the others as they are (`Stacked.writeAt`).
-/

namespace PagedGraph

/-- A reserved run. -/
structure Handle (workers : Nat) where
  /-- The worker it was reserved for. -/
  worker : Fin workers
  offset : Nat
  bytes : List UInt8
deriving DecidableEq, Repr

variable {n : Nat}

/-- Whether a byte of a page is one of the handle's. -/
def Handle.Owns (h : Handle n) (index place : Nat) : Prop :=
  pageOf h.offset = index ∧ placeOf h.offset ≤ place ∧ place < placeOf h.offset + h.bytes.length

/-- Handles whose bytes stand back to back from a place on. -/
inductive Stacked : Nat → List (Handle n) → List UInt8 → Prop
  | nil {place : Nat} : Stacked place [] []
  | cons {place : Nat} {h : Handle n} {rest : List (Handle n)} {bytes : List UInt8}
      (hplace : placeOf h.offset = place) (hrest : Stacked (place + h.bytes.length) rest bytes) :
      Stacked place (h :: rest) (h.bytes ++ bytes)

namespace Stacked

variable {place : Nat} {handles more : List (Handle n)} {h : Handle n} {bytes : List UInt8}

theorem singleton (h : Handle n) : Stacked (placeOf h.offset) [h] h.bytes := by
  have hcons := cons (rfl : placeOf h.offset = placeOf h.offset) nil
  rwa [List.append_nil] at hcons

theorem of_singleton (hs : Stacked place [h] bytes) :
    placeOf h.offset = place ∧ bytes = h.bytes := by
  cases hs with
  | cons hplace hrest =>
    cases hrest
    exact ⟨hplace, List.append_nil _⟩

/-- More handles on top. -/
theorem append (hs : Stacked place handles bytes) :
    ∀ {back : List UInt8}, Stacked (place + bytes.length) more back →
      Stacked place (handles ++ more) (bytes ++ back) := by
  induction hs with
  | nil => exact fun hmore => hmore
  | cons hplace hrest ih =>
    intro back hmore
    rw [List.cons_append, List.append_assoc]
    refine cons hplace (ih ?_)
    rwa [List.length_append, ← Nat.add_assoc] at hmore

/-- A stack is cut between two handles. -/
theorem exists_append {front : List (Handle n)} :
    ∀ {place : Nat} {bytes : List UInt8}, Stacked place (front ++ more) bytes →
      ∃ below above, bytes = below ++ above ∧ Stacked place front below ∧
        Stacked (place + below.length) more above := by
  induction front with
  | nil => exact fun hs => ⟨[], _, rfl, nil, hs⟩
  | cons h rest ih =>
    intro place bytes hs
    cases hs with
    | cons hplace hrest =>
      obtain ⟨below, above, rfl, hbelow, habove⟩ := ih hrest
      refine ⟨h.bytes ++ below, above, (List.append_assoc ..).symm, cons hplace hbelow, ?_⟩
      rwa [List.length_append, ← Nat.add_assoc]

/-- The bytes of a handle, with those below and above, and what may stand in its place. -/
theorem exists_around {front back : List (Handle n)}
    (hs : Stacked place (front ++ h :: back) bytes) :
    ∃ below above, bytes = below ++ (h.bytes ++ above) ∧ placeOf h.offset = place + below.length ∧
      ∀ h' : Handle n, h'.offset = h.offset → h'.bytes.length = h.bytes.length →
        Stacked place (front ++ h' :: back) (below ++ (h'.bytes ++ above)) := by
  obtain ⟨below, _, rfl, hbelow, hrest⟩ := hs.exists_append
  cases hrest with
  | cons hplace habove =>
    refine ⟨below, _, rfl, hplace, fun h' hoffset hlength => hbelow.append ?_⟩
    refine cons (by rw [hoffset, hplace]) ?_
    rwa [hlength]

/-- Writing over the bytes of a handle, in the page they are in. -/
theorem writeAt {front back : List (Handle n)} {page : Page} {h' : Handle n}
    (hs : Stacked 0 (front ++ h :: back) page.bytes.toList) (hindex : page.index = pageOf h.offset)
    (hoffset : h'.offset = h.offset) (hlength : h'.bytes.length = h.bytes.length) :
    Stacked 0 (front ++ h' :: back) (page.writeAt h.offset h'.bytes).bytes.toList := by
  obtain ⟨below, above, hbytes, hplace, hinstead⟩ := hs.exists_around
  rw [Nat.zero_add] at hplace
  have hwritten :=
    Page.toList_overwrite above h'.bytes below h.bytes page.bytes hbytes hlength.symm
  rw [← hplace] at hwritten
  rw [Page.writeAt, if_pos hindex, Page.write, hwritten]
  exact hinstead h' hoffset hlength

theorem length_eq (hs : Stacked place handles bytes) :
    bytes.length = addUp (handles.map fun h => h.bytes.length) := by
  induction hs with
  | nil => rfl
  | cons _ _ ih => rw [List.length_append, ih, List.map_cons, addUp_cons]

theorem le_place (hs : Stacked place handles bytes) :
    ∀ h ∈ handles, place ≤ placeOf h.offset := by
  induction hs with
  | nil => simp
  | cons hplace hrest ih =>
    intro h hmem
    rcases List.mem_cons.mp hmem with rfl | hmem
    · exact Nat.le_of_eq hplace.symm
    · exact Nat.le_trans (Nat.le_add_right ..) (ih h hmem)

/-- A handle ends before a later one starts. -/
theorem pairwise (hs : Stacked place handles bytes) :
    handles.Pairwise fun h h' => placeOf h.offset + h.bytes.length ≤ placeOf h'.offset := by
  induction hs with
  | nil => exact .nil
  | cons hplace hrest ih =>
    refine .cons (fun h' hmem => ?_) ih
    rw [hplace]
    exact hrest.le_place h' hmem

/-- Every byte is one of a handle's. -/
theorem exists_owner (hs : Stacked place handles bytes) :
    ∀ i, place ≤ i → i < place + bytes.length →
      ∃ h ∈ handles, placeOf h.offset ≤ i ∧ i < placeOf h.offset + h.bytes.length := by
  induction hs with
  | nil =>
    intro i hle hlt
    exact absurd hlt (Nat.not_lt.mpr hle)
  | @cons place h rest bytes hplace hrest ih =>
    intro i hle hlt
    by_cases hfirst : i < place + h.bytes.length
    · exact ⟨h, List.mem_cons_self, by omega, by omega⟩
    · rw [List.length_append] at hlt
      obtain ⟨h', hmem, howner⟩ := ih i (by omega) (by omega)
      exact ⟨h', List.mem_cons_of_mem _ hmem, howner⟩

end Stacked

end PagedGraph
