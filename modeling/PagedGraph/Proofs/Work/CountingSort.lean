import Mathlib.Data.List.Nodup
import PagedGraph.Number.Sum
import PagedGraph.Work.CountingSort

/-!
# Counting sort groups items by key

If no item has a key twice, and all keys are below the bound, then the items of a key come out
together and ascending (`KeyGroups.itemsOf_ofItems`).

* The counts are the numbers of items, so their sums are where the items of a key start
  (`KeyGroups.getElem?_startsOf`).
* While places are filled, the first places of a key have those of its items that were taken
  so far (`KeySlots.Filled`).  Its next free place lies in front of the places of the next
  key, since fewer items than were counted have been put.
-/

namespace PagedGraph

/-- Modifying an array at some different places. -/
theorem getElem?_foldl_modify {α : Type} (f : α → α) (i : Nat) {places : List Nat}
    (h : places.Nodup) : ∀ xs : Array α, (places.foldl (fun xs t => xs.modify t f) xs)[i]? =
      xs[i]?.map fun x => if i ∈ places then f x else x := by
  induction places with
  | nil =>
    intro xs
    simp
  | cons t places ih =>
    obtain ⟨ht, hplaces⟩ := List.nodup_cons.mp h
    intro xs
    rw [List.foldl_cons, ih hplaces, Array.getElem?_modify]
    by_cases heq : t = i
    · subst heq
      rw [if_pos rfl, Option.map_map]
      refine congrArg (Option.map · _) (funext fun x => ?_)
      simp [ht]
    · rw [if_neg heq]
      refine congrArg (Option.map · _) (funext fun x => ?_)
      simp [Ne.symm heq]

/-- The items among the first ones that have a key. -/
def itemsAmong (keys : Nat → List Nat) (count key : Nat) : List Nat :=
  (List.range count).filter fun item => key ∈ keys item

variable {keys : Nat → List Nat} {count bound key : Nat}

theorem pairwise_itemsAmong (keys : Nat → List Nat) (count key : Nat) :
    (itemsAmong keys count key).Pairwise (· < ·) :=
  List.pairwise_lt_range.filter _

/-- One more item is the last of those with its keys. -/
theorem itemsAmong_succ (keys : Nat → List Nat) (count key : Nat) :
    itemsAmong keys (count + 1) key =
      if key ∈ keys count then itemsAmong keys count key ++ [count]
      else itemsAmong keys count key := by
  rw [itemsAmong, List.range_succ, List.filter_append, ← itemsAmong]
  by_cases h : key ∈ keys count
  · simp [h]
  · simp [h]

theorem length_itemsAmong_le {count count' : Nat} (h : count ≤ count') :
    (itemsAmong keys count key).length ≤ (itemsAmong keys count' key).length :=
  ((List.range_sublist.mpr h).filter _).length_le

/-- Where the items of a key start. -/
def itemStart (keys : Nat → List Nat) (count key : Nat) : Nat :=
  addUp ((List.range key).map fun before => (itemsAmong keys count before).length)

theorem itemStart_succ (keys : Nat → List Nat) (count key : Nat) :
    itemStart keys count (key + 1) =
      itemStart keys count key + (itemsAmong keys count key).length := by
  rw [itemStart, List.range_succ, List.map_append, addUp_append, ← itemStart]
  rfl

theorem itemStart_mono {before : Nat} (h : before ≤ key) :
    itemStart keys count before ≤ itemStart keys count key := by
  induction h with
  | refl => exact Nat.le_refl _
  | step _ ih =>
    rw [itemStart_succ]
    exact Nat.le_trans ih (Nat.le_add_right ..)

/-! ## Counting -/

theorem getElem?_countKeys {ks : List Nat} (h : ks.Nodup) (counts : Array Nat) (i : Nat) :
    (countKeys counts ks)[i]? =
      counts[i]?.map fun n => if i ∈ ks.map (· + 1) then n + 1 else n := by
  have hplaces : (ks.map (· + 1)).Nodup := h.map fun _ _ heq => Nat.succ.inj heq
  rw [← getElem?_foldl_modify (· + 1) i hplaces counts, List.foldl_map]
  rfl

/-- For every key its items are counted, one place behind. -/
theorem getElem?_foldl_countKeys (hnodup : ∀ item, (keys item).Nodup) (count : Nat) :
    ((List.range count).foldl (fun counts item => countKeys counts (keys item))
        (Array.replicate (bound + 1) 0))[0]? = some 0 ∧
      ∀ key < bound, ((List.range count).foldl (fun counts item => countKeys counts (keys item))
        (Array.replicate (bound + 1) 0))[key + 1]? = some (itemsAmong keys count key).length := by
  induction count with
  | zero =>
    refine ⟨by simp, fun key hkey => ?_⟩
    rw [List.range_zero, List.foldl_nil, Array.getElem?_replicate, if_pos (by omega)]
    rfl
  | succ count ih =>
    obtain ⟨hzero, hcounts⟩ := ih
    rw [List.range_succ, List.foldl_append, List.foldl_cons, List.foldl_nil]
    refine ⟨?_, fun key hkey => ?_⟩
    · rw [getElem?_countKeys (hnodup count), hzero]
      simp
    · rw [getElem?_countKeys (hnodup count), hcounts key hkey, itemsAmong_succ]
      by_cases hmem : key ∈ keys count
      · simp [hmem]
      · simp [hmem]

/-- Numbers behind a zero are replaced by the sums of those in front of them. -/
theorem getElem?_runningSums {n : Nat} {counts : Array Nat} {f : Nat → Nat}
    (hsize : counts.size = n + 1) (hzero : counts[0]? = some 0)
    (hcounts : ∀ t < n, counts[t + 1]? = some (f t)) :
    ∀ t ≤ n, (runningSums counts)[t]? = some (addUp ((List.range t).map f)) := by
  have hsums : ∀ k ≤ n,
      (∀ t ≤ k, ((List.range k).foldl (fun sums i => sums.modify (i + 1) (· + sums.getD i 0))
        counts)[t]? = some (addUp ((List.range t).map f))) ∧
      ∀ t < n, k ≤ t → ((List.range k).foldl (fun sums i =>
        sums.modify (i + 1) (· + sums.getD i 0)) counts)[t + 1]? = some (f t) := by
    intro k
    induction k with
    | zero =>
      intro _
      refine ⟨fun t ht => ?_, fun t ht _ => hcounts t ht⟩
      rw [Nat.le_zero.mp ht]
      exact hzero
    | succ k ih =>
      intro hk
      obtain ⟨hdone, hrest⟩ := ih (Nat.le_of_succ_le hk)
      rw [List.range_succ, List.foldl_append, List.foldl_cons, List.foldl_nil]
      generalize (List.range k).foldl _ counts = sums at hdone hrest ⊢
      have hlast : sums.getD k 0 = addUp ((List.range k).map f) := by
        rw [Array.getD_eq_getD_getElem?, hdone k (Nat.le_refl k), Option.getD_some]
      refine ⟨fun t ht => ?_, fun t ht hkt => ?_⟩
      · rw [Array.getElem?_modify]
        rcases Nat.lt_or_eq_of_le ht with hlt | rfl
        · rw [if_neg (by omega)]
          exact hdone t (by omega)
        · rw [if_pos rfl, hrest k (by omega) (Nat.le_refl k), Option.map_some, hlast,
            List.range_succ, List.map_append, addUp_append, Nat.add_comm]
          rfl
      · rw [Array.getElem?_modify, if_neg (by omega)]
        exact hrest t ht (by omega)
  intro t ht
  rw [runningSums, hsize]
  exact (hsums n (Nat.le_refl n)).1 t ht

theorem size_countKeys (ks : List Nat) (counts : Array Nat) :
    (countKeys counts ks).size = counts.size := by
  induction ks generalizing counts with
  | nil => rfl
  | cons key rest ih => exact (ih _).trans (Array.size_modify ..)

theorem size_foldl_countKeys (items : List Nat) (counts : Array Nat) :
    (items.foldl (fun counts item => countKeys counts (keys item)) counts).size =
      counts.size := by
  induction items generalizing counts with
  | nil => rfl
  | cons item rest ih => rw [List.foldl_cons, ih, size_countKeys]

namespace KeyGroups

/-- The items of every key start behind those of the keys before it. -/
theorem getElem?_startsOf (hnodup : ∀ item, (keys item).Nodup) (hkey : key ≤ bound) :
    (startsOf keys count bound)[key]? = some (itemStart keys count key) := by
  obtain ⟨hzero, hcounts⟩ := @getElem?_foldl_countKeys keys bound hnodup count
  refine getElem?_runningSums ?_ hzero hcounts key hkey
  exact (size_foldl_countKeys _ _).trans Array.size_replicate

theorem getD_startsOf (hnodup : ∀ item, (keys item).Nodup) (hkey : key ≤ bound) :
    (startsOf keys count bound).getD key 0 = itemStart keys count key := by
  rw [Array.getD_eq_getD_getElem?, getElem?_startsOf hnodup hkey, Option.getD_some]

end KeyGroups

/-! ## Filling -/

namespace KeySlots

/-- The first places of every key have some of its items, and the next place is free. -/
structure Filled (keys : Nat → List Nat) (count bound : Nat) (s : KeySlots)
    (lists : Nat → List Nat) : Prop where
  next : ∀ key < bound, s.next[key]? = some (itemStart keys count key + (lists key).length)
  items : ∀ key < bound, ∀ i < (lists key).length,
    s.items[itemStart keys count key + i]? = (lists key)[i]?
  size : s.items.size = itemStart keys count bound
  fits : ∀ key < bound, (lists key).length ≤ (itemsAmong keys count key).length

/-- The places of a key lie in front of those of a later one. -/
theorem place_lt {later i : Nat} (hi : i < (itemsAmong keys count key).length)
    (hlt : key < later) : itemStart keys count key + i < itemStart keys count later := by
  have hstart : itemStart keys count (key + 1) ≤ itemStart keys count later := itemStart_mono hlt
  rw [itemStart_succ] at hstart
  omega

variable {s : KeySlots} {lists : Nat → List Nat}

/-- An item is put behind those of its key, where no other key has a place. -/
theorem Filled.put (h : Filled keys count bound s lists) (item : Nat) (hkey : key < bound)
    (hroom : (lists key).length < (itemsAmong keys count key).length) :
    Filled keys count bound (s.put item key)
      fun k => if k = key then lists k ++ [item] else lists k := by
  obtain ⟨next, items⟩ := s
  have hplace : next.getD key 0 = itemStart keys count key + (lists key).length := by
    rw [Array.getD_eq_getD_getElem?, h.next key hkey, Option.getD_some]
  have hsize : items.size = itemStart keys count bound := h.size
  have hinside := place_lt hroom hkey
  simp only [KeySlots.put, hplace]
  refine ⟨fun k hk => ?_, fun k hk i hi => ?_, ?_, fun k hk => ?_⟩
  · show (next.modify key (· + 1))[k]? = _
    rw [Array.getElem?_modify, h.next k hk]
    by_cases heq : k = key
    · subst heq
      simp [Nat.add_assoc]
    · simp [heq, Ne.symm heq]
  · show (items.setIfInBounds _ item)[_]? = _
    by_cases heq : k = key
    · subst heq
      simp only [if_pos, List.length_append, List.length_singleton] at hi ⊢
      rcases Nat.lt_or_eq_of_le (Nat.le_of_lt_succ hi) with hlt | rfl
      · rw [Array.getElem?_setIfInBounds_ne (by omega), List.getElem?_append_left hlt]
        exact h.items k hk i hlt
      · rw [Array.getElem?_setIfInBounds_self_of_lt (by omega), List.getElem?_concat_length]
    · simp only [if_neg heq] at hi ⊢
      have hother := Nat.lt_of_lt_of_le hi (h.fits k hk)
      have hne : itemStart keys count key + (lists key).length ≠ itemStart keys count k + i := by
        rcases Nat.lt_or_gt_of_ne heq with hlt | hlt
        · exact Nat.ne_of_gt (Nat.lt_of_lt_of_le (place_lt hother hlt) (Nat.le_add_right ..))
        · exact Nat.ne_of_lt (Nat.lt_of_lt_of_le (place_lt hroom hlt) (Nat.le_add_right ..))
      rw [Array.getElem?_setIfInBounds_ne hne]
      exact h.items k hk i hi
  · show (items.setIfInBounds _ item).size = _
    rw [Array.size_setIfInBounds, hsize]
  · split
    · next heq =>
      rw [heq, List.length_append]
      exact hroom
    · exact h.fits k hk

theorem Filled.putAll (item : Nat) {ks : List Nat} (hnodup : ks.Nodup) :
    ∀ {s : KeySlots} {lists : Nat → List Nat}, Filled keys count bound s lists →
      (∀ k ∈ ks, k < bound ∧ (lists k).length < (itemsAmong keys count k).length) →
      Filled keys count bound (s.putAll item ks) fun k =>
        if k ∈ ks then lists k ++ [item] else lists k := by
  induction ks with
  | nil =>
    intro s lists h _
    simpa [KeySlots.putAll] using h
  | cons key rest ih =>
    intro s lists h hroom
    obtain ⟨hkey, hrest⟩ := List.nodup_cons.mp hnodup
    obtain ⟨⟨hbound, hlen⟩, hroom⟩ := List.forall_mem_cons.mp hroom
    have hput := ih hrest (h.put item hbound hlen) fun k hk => by
      have hne : k ≠ key := fun heq => hkey (heq ▸ hk)
      simpa [hne] using hroom k hk
    have hlists : (fun k => if k ∈ key :: rest then lists k ++ [item] else lists k) =
        fun k => if k ∈ rest then (if k = key then lists k ++ [item] else lists k) ++ [item]
          else if k = key then lists k ++ [item] else lists k := by
      funext k
      by_cases heq : k = key
      · simp [heq, hkey]
      · simp [heq]
    rw [hlists]
    exact hput

/-- Item by item, the first ones are put into the places of their keys. -/
theorem filled_foldl (hnodup : ∀ item, (keys item).Nodup)
    (hbounded : ∀ item < count, ∀ key ∈ keys item, key < bound)
    (hblank : Filled keys count bound s fun _ => []) :
    ∀ done ≤ count, Filled keys count bound
      ((List.range done).foldl (fun s item => s.putAll item (keys item)) s)
      (itemsAmong keys done) := by
  intro done
  induction done with
  | zero => exact fun _ => hblank
  | succ done ih =>
    intro hdone
    have hput := Filled.putAll done (hnodup done) (ih (Nat.le_of_succ_le hdone)) fun key hkey => by
      refine ⟨hbounded done hdone key hkey, ?_⟩
      have hle := @length_itemsAmong_le keys key (done + 1) count hdone
      rwa [itemsAmong_succ, if_pos hkey, List.length_append] at hle
    rw [List.range_succ, List.foldl_append, List.foldl_cons, List.foldl_nil,
      funext (itemsAmong_succ keys done)]
    exact hput

end KeySlots

/-! ## Groups -/

/-- A list that lies in a piece of an array is what the piece holds. -/
theorem toList_extract_eq {items : Array Nat} {start : Nat} {xs : List Nat}
    (hget : ∀ i < xs.length, items[start + i]? = xs[i]?) :
    (items.extract start (start + xs.length)).toList = xs := by
  refine List.ext_getElem? fun i => ?_
  rw [Array.toList_extract, List.extract_eq_take_drop, Nat.add_sub_cancel_left,
    List.getElem?_take, List.getElem?_drop, Array.getElem?_toList]
  split
  · next h => exact hget i h
  · next h => exact (List.getElem?_eq_none (Nat.not_lt.mp h)).symm

namespace KeyGroups

variable (hnodup : ∀ item, (keys item).Nodup)
  (hbounded : ∀ item < count, ∀ key ∈ keys item, key < bound)

include hnodup hbounded

/-- The items of a key are all put, from where they start. -/
theorem getElem?_items (hkey : key < bound) :
    ∀ i < (itemsAmong keys count key).length,
      (ofItems keys count bound).items[itemStart keys count key + i]? =
        (itemsAmong keys count key)[i]? := by
  have hblank : KeySlots.Filled keys count bound
      ⟨startsOf keys count bound,
        Array.replicate ((startsOf keys count bound).getD bound 0) 0⟩ fun _ => [] :=
    ⟨fun _ hk => getElem?_startsOf hnodup (Nat.le_of_lt hk), nofun,
      Array.size_replicate.trans (getD_startsOf hnodup (Nat.le_refl _)), fun _ _ => Nat.zero_le _⟩
  exact (KeySlots.filled_foldl hnodup hbounded hblank count (Nat.le_refl _)).items key hkey

/-- The items of a key come out together, ascending. -/
theorem itemsOf_ofItems (hkey : key < bound) :
    (ofItems keys count bound).itemsOf key = itemsAmong keys count key := by
  have hstart : (ofItems keys count bound).starts.getD key 0 = itemStart keys count key :=
    getD_startsOf hnodup (Nat.le_of_lt hkey)
  have hstop : (ofItems keys count bound).starts.getD (key + 1) 0 =
      itemStart keys count key + (itemsAmong keys count key).length := by
    rw [← itemStart_succ]
    exact getD_startsOf hnodup hkey
  rw [itemsOf, hstart, hstop]
  exact toList_extract_eq (getElem?_items hnodup hbounded hkey)

end KeyGroups

end PagedGraph
