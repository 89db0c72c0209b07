import PagedGraph.Proofs.Codec.Leb128

/-!
# Numbers in a buffer

Numbers are written into a byte array one behind the other (`Leb128.writeAll`), and read off
it again by stepping from each to the place where it ends (`Leb128.readWords`).

* Writing a number, or appending it, puts the bytes of `encode` (`writeAt_eq`, `append_eq`).
* Overwriting with one run of bytes and then with another is overwriting with both
  (`overwrite?_append`), so writing numbers is overwriting with their bytes
  (`writeAll_eq_overwrite?`).  It puts them in place of as many bytes, and fails where there
  are fewer (`overwrite?_eq`).
* Where the bytes of numbers below 2^64 lie in an array, reading gives these numbers, each
  with the place of the next (`readWords_eq`).

`Leb128.Coded` sums this up for some numbers, and `Leb128.coded` says that it holds.
-/

namespace PagedGraph

namespace Leb128

/-- Overwrite bytes from a position on.  None when the array is too short. -/
def overwrite? (bytes : Array UInt8) (position : Nat) : List UInt8 → Option (Array UInt8 × Nat)
  | [] => some (bytes, position)
  | b :: rest =>
    if h : position < bytes.size then overwrite? (bytes.set position b) (position + 1) rest
    else none

/-- Write numbers one behind the other, the first at `position`. -/
def writeAll (bytes : Array UInt8) (position : Nat) (ns : List Nat) : Option (Array UInt8 × Nat) :=
  ns.foldlM (fun written n => writeAt written.1 written.2 n) (bytes, position)

/-- Read some words one behind the other, each with the position after it. -/
def readWords (bytes : Array UInt8) (position : Nat) : Nat → Option (List (Nat × Nat))
  | 0 => some []
  | count + 1 =>
    match readWordAt bytes position with
    | some (n, after) => (readWords bytes after count).map ((n, after) :: ·)
    | none => none

/-- Numbers with the positions after them, when the first starts at `position`. -/
def withEnds (position : Nat) : List Nat → List (Nat × Nat)
  | [] => []
  | n :: ns => (n, position + size n) :: withEnds (position + size n) ns

theorem map_fst_withEnds (ns : List Nat) :
    ∀ position : Nat, (withEnds position ns).map Prod.fst = ns := by
  induction ns with
  | nil => exact fun _ => rfl
  | cons n ns ih => exact fun position => congrArg (n :: ·) (ih (position + size n))

/-- The bytes of numbers are as many as their sizes add up to. -/
theorem length_flatMap_encode (ns : List Nat) :
    (ns.flatMap encode).length = addUp (ns.map size) := by
  induction ns with
  | nil => rfl
  | cons n ns ih =>
    rw [List.flatMap_cons, List.length_append, length_encode, ih, List.map_cons, addUp_cons]

/-! ## Writing -/

/-- The high bit of a byte, set above seven bits of a number. -/
theorem or_highBit (n : Nat) : n.toUInt8 ||| 0x80 = (n % 128 + 128).toUInt8 := by
  have hlow : n % 128 < 2 ^ 7 := Nat.mod_lt n (by decide)
  have hadd : 128 + n % 128 = 128 ||| n % 128 := Nat.two_pow_add_eq_or_of_lt hlow 1
  have hbyte : (n.toUInt8 ||| 0x80).toNat = n % 256 ||| 128 := by simp
  rw [← UInt8.toNat_inj, toNat_group, hbyte, Nat.add_comm, hadd]
  -- the bit above the seven is a bit of the byte or not
  rcases (by omega : n % 256 = n % 128 ∨ n % 256 = 128 + n % 128) with h | h
  · rw [h, Nat.or_comm]
  · rw [h, hadd, Nat.or_comm, ← Nat.or_assoc, Nat.or_self]

/-- Writing a number is overwriting with its bytes. -/
theorem writeAt_eq (bytes : Array UInt8) (position n : Nat) :
    writeAt bytes position n = overwrite? bytes position (encode n) := by
  fun_induction writeAt bytes position n with
  | case1 bytes position n h hlast => rw [encode, if_pos hlast, overwrite?, dif_pos h, overwrite?]
  | case2 bytes position n h hmore ih =>
    rw [encode, if_neg hmore, overwrite?, dif_pos h, ih, or_highBit, Nat.shiftRight_eq_div_pow]
  | case3 bytes position n h =>
    rw [encode]
    split <;> rw [overwrite?, dif_neg h]

/-- Appending a number adds its bytes. -/
theorem append_eq (bytes : Array UInt8) (n : Nat) : append bytes n = bytes ++ encode n := by
  fun_induction append bytes n with
  | case1 bytes n hlast =>
    rw [encode, if_pos hlast]
    rfl
  | case2 bytes n hmore ih =>
    rw [encode, if_neg hmore, ih, or_highBit, Nat.shiftRight_eq_div_pow]
    simp

theorem overwrite?_append (run more : List UInt8) :
    ∀ (bytes : Array UInt8) (position : Nat), overwrite? bytes position (run ++ more) =
      (overwrite? bytes position run).bind fun written => overwrite? written.1 written.2 more := by
  induction run with
  | nil => exact fun _ _ => rfl
  | cons b run ih =>
    intro bytes position
    rw [List.cons_append, overwrite?, overwrite?]
    by_cases hlt : position < bytes.size
    · rw [dif_pos hlt, dif_pos hlt, ih]
    · rw [dif_neg hlt, dif_neg hlt, Option.bind_none]

/-- Writing numbers is overwriting with their bytes. -/
theorem writeAll_eq_overwrite? (ns : List Nat) :
    ∀ (bytes : Array UInt8) (position : Nat),
      writeAll bytes position ns = overwrite? bytes position (ns.flatMap encode) := by
  induction ns with
  | nil => exact fun _ _ => rfl
  | cons n ns ih =>
    intro bytes position
    rw [List.flatMap_cons, overwrite?_append, writeAll, List.foldlM_cons, writeAt_eq]
    exact congrArg (Option.bind _) (funext fun written => ih written.1 written.2)

/-- Overwriting replaces as many bytes as there are in the run, and fails where there are
fewer behind the position. -/
theorem overwrite?_eq (run : List UInt8) :
    ∀ (bytes : Array UInt8) (position : Nat), overwrite? bytes position run =
      if run.length ≤ bytes.size - position then
        some ((bytes.toList.take position ++ run ++
          bytes.toList.drop (position + run.length)).toArray, position + run.length)
      else none := by
  induction run with
  | nil =>
    intro bytes position
    simp [overwrite?]
  | cons b run ih =>
    intro bytes position
    by_cases hlt : position < bytes.size
    · have hfits : run.length ≤ (bytes.set position b).size - (position + 1) ↔
          (b :: run).length ≤ bytes.size - position := by
        rw [Array.size_set, List.length_cons]
        omega
      have hfront : (bytes.set position b).toList.take (position + 1) =
          bytes.toList.take position ++ [b] := by
        rw [Array.toList_set, List.take_add_one, List.take_set_of_le (Nat.le_refl _)]
        simp [hlt]
      have hstop : position + 1 + run.length = position + (b :: run).length := by
        rw [List.length_cons]
        omega
      have hback : (bytes.set position b).toList.drop (position + (b :: run).length) =
          bytes.toList.drop (position + (b :: run).length) := by
        rw [Array.toList_set, List.drop_set_of_lt (by omega)]
      rw [overwrite?, dif_pos hlt, ih, hstop, hfront, hback]
      simp only [hfits, List.append_assoc, List.singleton_append]
    · have hfull : ¬ (b :: run).length ≤ bytes.size - position := by
        rw [List.length_cons]
        omega
      rw [overwrite?, dif_neg hlt, if_neg hfull]

/-- Appending numbers adds their bytes behind those that are there. -/
theorem toList_foldl_append (ns : List Nat) :
    ∀ bytes : Array UInt8, (ns.foldl append bytes).toList = bytes.toList ++ ns.flatMap encode := by
  induction ns with
  | nil => simp
  | cons n ns ih =>
    intro bytes
    rw [List.foldl_cons, ih, append_eq, List.flatMap_cons]
    simp

/-! ## Reading -/

/-- A number that lies at a position is read, and the bytes behind it are left. -/
theorem readAt_of_drop {bytes : Array UInt8} {position n : Nat} {rest : List UInt8}
    (h : bytes.toList.drop position = encode n ++ rest) :
    readAt bytes position = some (n, position + size n) ∧
      bytes.toList.drop (position + size n) = rest := by
  have hlen := congrArg List.length h
  have hpos := size_pos n
  rw [List.length_drop, Array.length_toList, List.length_append, length_encode] at hlen
  constructor
  · rw [readAt_eq, h, decode_encode_append, Option.map_some]
    exact congrArg (fun after => some (n, after)) (by omega)
  · rw [← List.drop_drop, h, ← length_encode n, List.drop_left]

theorem readWordAt_of_drop {bytes : Array UInt8} {position n : Nat} {rest : List UInt8}
    (hn : n < UInt64.size) (h : bytes.toList.drop position = encode n ++ rest) :
    readWordAt bytes position = some (n, position + size n) := by
  rw [readWordAt, (readAt_of_drop h).1]
  exact congrArg (fun word => some (word, position + size n)) (Nat.mod_eq_of_lt hn)

/-- Where the bytes of some numbers lie, these are read, whatever bytes follow. -/
theorem readWords_eq {ns : List Nat} (hns : ∀ n ∈ ns, n < UInt64.size) {bytes : Array UInt8} :
    ∀ {position : Nat}, ns.flatMap encode <+: bytes.toList.drop position →
      readWords bytes position ns.length = some (withEnds position ns) := by
  induction ns with
  | nil => exact fun _ => rfl
  | cons n ns ih =>
    rintro position ⟨rest, hrest⟩
    obtain ⟨hn, hrestNs⟩ := List.forall_mem_cons.mp hns
    rw [List.flatMap_cons, List.append_assoc] at hrest
    have hword := readWordAt_of_drop hn hrest.symm
    have hmore : readWords bytes (position + size n) ns.length =
        some (withEnds (position + size n) ns) :=
      ih hrestNs ⟨rest, (readAt_of_drop hrest.symm).2.symm⟩
    simp only [List.length_cons, readWords, hword, hmore, Option.map_some, withEnds]

/-! ## Both -/

/-- Numbers leave the same bytes in every array, and are read wherever these lie. -/
structure Coded (ns : List Nat) : Prop where
  /-- The bytes are as many as the sizes add up to. -/
  length : (ns.flatMap encode).length = addUp (ns.map size)
  /-- Appending adds these bytes at the end. -/
  appended : ∀ bytes : Array UInt8,
    (ns.foldl append bytes).toList = bytes.toList ++ ns.flatMap encode
  /-- Writing fails where fewer bytes than that are behind the position, and only there. -/
  fails : ∀ (bytes : Array UInt8) (position : Nat),
    writeAll bytes position ns = none ↔ bytes.size - position < addUp (ns.map size)
  /-- Writing leaves these bytes at the position, and all others as they are. -/
  written : ∀ {bytes : Array UInt8} {position : Nat} {filled : Array UInt8} {stop : Nat},
    writeAll bytes position ns = some (filled, stop) →
      stop = position + addUp (ns.map size) ∧
        filled.toList = bytes.toList.take position ++ ns.flatMap encode ++ bytes.toList.drop stop
  /-- Reading gives every number, and stops where the next one starts. -/
  read : ∀ {bytes : Array UInt8} {position : Nat},
    ns.flatMap encode <+: bytes.toList.drop position →
    readWords bytes position ns.length = some (withEnds position ns)

theorem coded {ns : List Nat} (hns : ∀ n ∈ ns, n < UInt64.size) : Coded ns where
  length := length_flatMap_encode ns
  appended := toList_foldl_append ns
  fails bytes position := by
    rw [writeAll_eq_overwrite?, overwrite?_eq, length_flatMap_encode, ite_eq_right_iff]
    simp only [reduceCtorEq, imp_false, Nat.not_le]
  written {bytes position filled stop} h := by
    rw [writeAll_eq_overwrite?, overwrite?_eq, length_flatMap_encode] at h
    obtain ⟨-, h⟩ := Option.ite_none_right_eq_some.mp h
    obtain ⟨rfl, rfl⟩ := Prod.mk.inj (Option.some.inj h)
    exact ⟨rfl, rfl⟩
  read := readWords_eq hns

end Leb128

end PagedGraph
