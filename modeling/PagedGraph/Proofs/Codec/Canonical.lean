import Mathlib.Algebra.Group.Nat.Defs
import PagedGraph.Proofs.Cursor.Run

/-!
# Canonical codes

The bytes of a number are some with the high bit set, and a last one without it, which is
zero only if it is alone.  Conversely all such bytes are those of a number.  How large it is
shows in the last byte and in how many there are before it (`Leb128.Groups`).  So the codes
of 64 bit numbers are a matter of the bytes alone: at most ten, and the tenth is at most one
(`Groups.isCode_iff`).

`Leb128.prefixFree_canonical_coded` is the result, for codes, for numbers in a buffer, and for
ascending lists that are written as their differences.
-/

namespace PagedGraph

namespace Leb128

/-- The bytes of some 64 bit number: those before the last, and the last. -/
structure IsCode (front : List UInt8) (last : UInt8) : Prop where
  /-- All bytes but the last have the high bit set. -/
  continued : ∀ b ∈ front, 128 ≤ b.toNat
  ended : last.toNat < 128
  /-- The last byte is zero only if it is the only one. -/
  shortest : front ≠ [] → last ≠ 0
  length_le : (front ++ [last]).length ≤ 10
  /-- A tenth byte holds one bit, the highest of 64. -/
  tenth : (front ++ [last]).length = 10 → last.toNat ≤ 1

/-- The bytes of a number of any size, and what they say of it. -/
structure Groups (n : Nat) (front : List UInt8) (last : UInt8) : Prop where
  encode_eq : encode n = front ++ [last]
  continued : ∀ b ∈ front, 128 ≤ b.toNat
  ended : last.toNat < 128
  shortest : front ≠ [] → last ≠ 0
  le : 128 ^ front.length * last.toNat ≤ n
  lt : n < 128 ^ front.length * (last.toNat + 1)

variable {n : Nat} {front : List UInt8} {last : UInt8}

theorem toUInt8_toNat (b : UInt8) : b.toNat.toUInt8 = b := UInt8.ofNat_toNat

theorem toNat_pos {b : UInt8} (h : b ≠ 0) : 0 < b.toNat :=
  Nat.pos_of_ne_zero fun hzero => h (UInt8.toNat_inj.mp hzero)

theorem groups_of_lt (h : n < 128) : Groups n [] n.toUInt8 where
  encode_eq := by rw [encode, if_pos h, List.nil_append]
  continued b hb := by cases hb
  ended := by rwa [toNat_lastGroup h]
  shortest hne := absurd rfl hne
  le := by
    refine Nat.le_of_eq ?_
    rw [toNat_lastGroup h, List.length_nil, Nat.pow_zero, Nat.one_mul]
  lt := by
    rw [toNat_lastGroup h, List.length_nil, Nat.pow_zero, Nat.one_mul]
    exact Nat.lt_succ_self n

/-- The last byte of a number that is not zero is not zero. -/
theorem Groups.last_ne_zero (h : Groups n front last) (hn : 0 < n) : last ≠ 0 := by
  rintro rfl
  cases front with
  | nil =>
    have hlt := h.lt
    simp only [List.length_nil, Nat.pow_zero, UInt8.toNat_zero] at hlt
    omega
  | cons b front => exact h.shortest (List.cons_ne_nil b front) rfl

/-- One more group in front. -/
theorem Groups.cons (h : Groups (n / 128) front last) (hn : 128 ≤ n) :
    Groups n ((n % 128 + 128).toUInt8 :: front) last where
  encode_eq := by rw [encode, if_neg (Nat.not_lt.mpr hn), h.encode_eq, List.cons_append]
  continued := by
    refine List.forall_mem_cons.mpr ⟨?_, h.continued⟩
    rw [toNat_group]
    exact Nat.le_add_left ..
  ended := h.ended
  shortest _ := h.last_ne_zero (Nat.div_pos hn (by decide))
  le := by
    have hle := h.le
    rw [List.length_cons, Nat.pow_succ, Nat.mul_comm _ 128, Nat.mul_assoc]
    omega
  lt := by
    have hlt := h.lt
    rw [List.length_cons, Nat.pow_succ, Nat.mul_comm _ 128, Nat.mul_assoc]
    omega

/-- Every number has its groups. -/
theorem exists_groups (n : Nat) : ∃ front last, Groups n front last := by
  fun_induction encode n with
  | case1 n h => exact ⟨[], _, groups_of_lt h⟩
  | case2 n h ih =>
    obtain ⟨front, last, hgroups⟩ := ih
    exact ⟨_, last, hgroups.cons (Nat.not_lt.mp h)⟩

/-- All bytes of this form are the groups of a number. -/
theorem exists_groups_of (hcontinued : ∀ b ∈ front, 128 ≤ b.toNat) (hended : last.toNat < 128)
    (hshortest : front ≠ [] → last ≠ 0) : ∃ n, Groups n front last := by
  induction front with
  | nil =>
    have hgroups := groups_of_lt hended
    rw [toUInt8_toNat] at hgroups
    exact ⟨_, hgroups⟩
  | cons b front ih =>
    obtain ⟨hb, hfront⟩ := List.forall_mem_cons.mp hcontinued
    have hlast := hshortest (List.cons_ne_nil b front)
    obtain ⟨m, hm⟩ := ih hfront fun _ => hlast
    have hpos : 0 < m := by
      have hle := hm.le
      have hone : 1 ≤ 128 ^ front.length * last.toNat :=
        Nat.mul_pos (Nat.pow_pos (by decide)) (toNat_pos hlast)
      omega
    -- The first byte says the rest of the number by 128, and the others the quotient.
    have hbyte := b.toNat_lt
    have hdiv : (b.toNat - 128 + 128 * m) / 128 = m := by omega
    have hmod : (b.toNat - 128 + 128 * m) % 128 + 128 = b.toNat := by omega
    have hgroups := Groups.cons (n := b.toNat - 128 + 128 * m) (by rwa [hdiv]) (by omega)
    rw [hmod, toUInt8_toNat] at hgroups
    exact ⟨_, hgroups⟩

/-- Whether a number has 64 bits shows in its groups. -/
theorem Groups.isCode_iff (h : Groups n front last) : IsCode front last ↔ n < UInt64.size := by
  have hlow := h.le
  have hhigh := h.lt
  have hended := h.ended
  constructor
  · intro hcode
    have hlength := hcode.length_le
    rw [List.length_append, List.length_singleton] at hlength
    rcases Nat.lt_or_ge front.length 9 with hshort | hlong
    · have hpow : 128 ^ front.length ≤ 128 ^ 8 := Nat.pow_le_pow_right (by decide) (by omega)
      have hmul := Nat.mul_le_mul hpow (show last.toNat + 1 ≤ 128 from hended)
      exact Nat.lt_of_lt_of_le hhigh (Nat.le_trans hmul (by decide))
    · have hnine : front.length = 9 := by omega
      have htenth := hcode.tenth (by rw [List.length_append, hnine]; rfl)
      rw [hnine] at hhigh
      exact Nat.lt_of_lt_of_le hhigh (Nat.mul_le_mul_left (128 ^ 9) (Nat.succ_le_succ htenth))
  · intro hn
    have hword : n < 128 ^ 9 * 2 := hn
    have hlength : front.length ≤ 9 := by
      refine Nat.le_of_not_lt fun hlong => ?_
      have hlast : last ≠ 0 := h.shortest (List.ne_nil_of_length_pos (Nat.zero_lt_of_lt hlong))
      have hpow : 128 ^ 10 ≤ 128 ^ front.length := Nat.pow_le_pow_right (by decide) hlong
      have hmul := Nat.mul_le_mul hpow (show 1 ≤ last.toNat from toNat_pos hlast)
      omega
    refine ⟨h.continued, hended, h.shortest, ?_, fun hten => ?_⟩
    · rw [List.length_append, List.length_singleton]
      omega
    · have hnine : front.length = 9 := by simpa using hten
      rw [hnine] at hlow
      omega

/-- The codes of 64 bit numbers are told by their bytes, and read back. -/
theorem isCode_iff_exists : IsCode front last ↔ ∃ n < UInt64.size,
    readWordAt (front ++ [last]).toArray 0 = some (n, (front ++ [last]).length) ∧
      encode n = front ++ [last] := by
  constructor
  · intro hcode
    obtain ⟨n, hgroups⟩ := exists_groups_of hcode.continued hcode.ended hcode.shortest
    have hn := hgroups.isCode_iff.mp hcode
    have hdrop : (front ++ [last]).toArray.toList.drop 0 = encode n ++ [] := by
      rw [List.append_nil, List.drop_zero, hgroups.encode_eq]
    have hread := readWordAt_of_drop hn hdrop
    rw [Nat.zero_add, ← length_encode, hgroups.encode_eq] at hread
    exact ⟨n, hn, hread, hgroups.encode_eq⟩
  · rintro ⟨n, hn, -, hencode⟩
    obtain ⟨front', last', hgroups⟩ := exists_groups n
    obtain ⟨rfl, hlast⟩ := List.append_inj' (hencode.symm.trans hgroups.encode_eq) rfl
    cases hlast
    exact hgroups.isCode_iff.mpr hn

/-- No code is the front of another. -/
theorem eq_of_encode_prefix {m n : Nat} (h : encode m <+: encode n) : m = n := by
  obtain ⟨rest, hrest⟩ := h
  have hdecode := decode_encode_append m rest
  have hwhole := decode_encode_append n []
  rw [hrest] at hdecode
  rw [List.append_nil, hdecode] at hwhole
  exact congrArg Prod.fst (Option.some.inj hwhole)

/-! ## Ascending lists -/

/-- An ascending list in a buffer: its differences are written and read like other numbers, and
summing them gives the list back. -/
structure CodedList (targets : List Nat) : Prop where
  deltas : Coded (deltas 0 targets)
  /-- As many bytes are written as the list is said to take. -/
  length : (encodeDeltas targets).length = deltaSize targets
  summed : ∀ {bytes : Array UInt8} {position : Nat},
    encodeDeltas targets <+: bytes.toList.drop position →
      (readWords bytes position targets.length).map (fun words => undelta 0 (words.map Prod.fst)) =
          some targets ∧
        runCursor.toList (.start bytes position targets.length) = targets

theorem codedList {targets : List Nat} (hascending : targets.Pairwise (· ≤ ·))
    (hwords : ∀ t ∈ targets, t < UInt64.size) : CodedList targets := by
  have hfirst : (0 :: targets).Pairwise (· ≤ ·) :=
    List.pairwise_cons.mpr ⟨fun _ _ => Nat.zero_le _, hascending⟩
  have hle : ∀ t ∈ targets, t ≤ UInt64.size - 1 := fun t ht => Nat.le_sub_one_of_lt (hwords t ht)
  have hdeltas : ∀ d ∈ deltas 0 targets, d < UInt64.size := fun d hd =>
    Nat.lt_of_le_of_lt (le_of_mem_deltas hle hd) (by decide)
  have hcoded := coded hdeltas
  refine ⟨hcoded, length_encodeDeltas targets, fun hbytes => ⟨?_, ?_⟩⟩
  · have hread := hcoded.read hbytes
    rw [length_deltas] at hread
    rw [hread, Option.map_some, map_fst_withEnds, undelta_deltas hfirst]
  · exact walks_runCursor.toList_eq ⟨rfl, hfirst, hbytes⟩

/-- Numbers in groups of seven bits are told apart without marks between them, have one code
each, and are read back from every buffer that they were written to. -/
theorem prefixFree_canonical_coded :
    (∀ m n : Nat, encode m <+: encode n → m = n) ∧
      (∀ ns : List Nat, (∀ n ∈ ns, n < UInt64.size) → Coded ns) ∧
      (∀ (front : List UInt8) (last : UInt8), IsCode front last ↔ ∃ n < UInt64.size,
        readWordAt (front ++ [last]).toArray 0 = some (n, (front ++ [last]).length) ∧
          encode n = front ++ [last]) ∧
      ∀ targets : List Nat, targets.Pairwise (· ≤ ·) → (∀ t ∈ targets, t < UInt64.size) →
        CodedList targets :=
  ⟨fun _ _ => eq_of_encode_prefix, fun _ => coded, fun _ _ => isCode_iff_exists,
    fun _ => codedList⟩

/-- The largest number takes ten bytes.  With two others it fits into thirteen bytes and not into
twelve. -/
theorem prefixFree_canonical_coded_extreme :
    (∃ filled,
      writeAll (Array.replicate 15 9) 1 [300, 0, 18446744073709551615] = some (filled, 14) ∧
      readWords filled 1 3 = some [(300, 3), (0, 4), (18446744073709551615, 14)]) ∧
      writeAll (Array.replicate 15 9) 3 [300, 0, 18446744073709551615] = none ∧
      (∃ n < UInt64.size, encode n = List.replicate 9 255 ++ [1]) ∧
      encodeDeltas [200, 201, 201] = [200, 1, 1, 0] ∧
      runCursor.toList (.start #[9, 200, 1, 1, 0, 128] 1 3) = [200, 201, 201] := by
  obtain ⟨-, hcoded, hcode, hlist⟩ := prefixFree_canonical_coded
  have hwords := hcoded [300, 0, 18446744073709551615] (by decide)
  have hdeltas : encodeDeltas [200, 201, 201] = [200, 1, 1, 0] := by
    simp [encodeDeltas, deltas, encode]
  have hbytes : encodeDeltas [200, 201, 201] <+:
      (#[9, 200, 1, 1, 0, 128] : Array UInt8).toList.drop 1 := by
    rw [hdeltas]
    decide
  refine ⟨?_, (hwords.fails _ _).mpr (by decide), ?_, hdeltas,
    ((hlist [200, 201, 201] (by decide) (by decide)).summed hbytes).2⟩
  · obtain ⟨⟨filled, stop⟩, hwritten⟩ := Option.ne_none_iff_exists'.mp
      (mt (hwords.fails (Array.replicate 15 9) 1).mp (by decide))
    obtain ⟨rfl, hfilled⟩ := hwords.written hwritten
    refine ⟨filled, hwritten, hwords.read ?_⟩
    rw [hfilled, List.append_assoc, List.drop_left' (by decide)]
    exact List.prefix_append ..
  · have hcontinued : ∀ b ∈ List.replicate 9 (255 : UInt8), 128 ≤ b.toNat := by
      intro b hb
      rw [List.eq_of_mem_replicate hb]
      decide
    obtain ⟨n, hn, -, hencode⟩ := (hcode (List.replicate 9 255) 1).mp
      ⟨hcontinued, by decide, by decide, by decide, by decide⟩
    exact ⟨n, hn, hencode⟩

end Leb128

end PagedGraph
