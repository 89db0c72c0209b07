import PagedGraph.Codec.Leb128

/-!
# The size of deltas

A number takes a byte at least, and a larger number takes no fewer bytes
(`Leb128.size_pos`, `Leb128.size_le_size`).  A difference of targets is no larger than
the target it leads to.  So targets up to some node take a byte each at least, and the
bytes of that node each at most (`Leb128.length_le_deltaSize`, `Leb128.deltaSize_le`).
-/

namespace PagedGraph

namespace Leb128

theorem size_pos (n : Nat) : 0 < size n := by
  rw [size]
  omega

/-- A larger number takes no fewer bytes. -/
theorem size_le_size {m n : Nat} (h : m ≤ n) : size m ≤ size n := by
  induction n using Nat.strongRecOn generalizing m with
  | ind n ih =>
    by_cases hm : m < 128
    · rw [size_of_lt hm]
      exact size_pos n
    · have hdiv : size (m / 128) ≤ size (n / 128) :=
        ih (n / 128) (by omega) (Nat.div_le_div_right h)
      rw [size_of_le (by omega : 128 ≤ m), size_of_le (by omega : 128 ≤ n)]
      exact Nat.succ_le_succ hdiv

@[simp] theorem length_deltas (targets : List Nat) :
    ∀ last : Nat, (deltas last targets).length = targets.length := by
  induction targets with
  | nil => exact fun _ => rfl
  | cons t rest ih => exact fun _ => congrArg Nat.succ (ih t)

/-- A difference is no larger than the target it leads to. -/
theorem le_of_mem_deltas {top d : Nat} {targets : List Nat} (h : ∀ t ∈ targets, t ≤ top) :
    ∀ {last : Nat}, d ∈ deltas last targets → d ≤ top := by
  induction targets with
  | nil =>
    intro last hd
    cases hd
  | cons t rest ih =>
    intro last hd
    obtain ⟨ht, hrest⟩ := List.forall_mem_cons.mp h
    rcases List.mem_cons.mp hd with rfl | hd
    · exact Nat.le_trans (Nat.sub_le ..) ht
    · exact ih hrest hd

/-- Every target takes a byte. -/
theorem length_le_deltaSize (targets : List Nat) : targets.length ≤ deltaSize targets := by
  have hbytes : ∀ b ∈ (deltas 0 targets).map size, 1 ≤ b := by
    intro b hb
    obtain ⟨d, -, rfl⟩ := List.mem_map.mp hb
    exact size_pos d
  have hle := mul_le_addUp hbytes
  rwa [List.length_map, length_deltas, Nat.mul_one] at hle

/-- No target takes more bytes than the largest. -/
theorem deltaSize_le {top : Nat} {targets : List Nat} (h : ∀ t ∈ targets, t ≤ top) :
    deltaSize targets ≤ targets.length * size top := by
  have hbytes : ∀ b ∈ (deltas 0 targets).map size, b ≤ size top := by
    intro b hb
    obtain ⟨d, hd, rfl⟩ := List.mem_map.mp hb
    exact size_le_size (le_of_mem_deltas h hd)
  have hle := addUp_le_mul hbytes
  rwa [List.length_map, length_deltas] at hle

end Leb128

end PagedGraph
