/-!
# Addresses in a paged store

A byte of a paged store has an offset.  The low `placeBits` bits are the place inside
a page and the rest is the index of the page.  Joining is bitwise: a
place that is no place inside a page, such as `pageSize` itself, runs into the
index and an odd index swallows it.

Page 0 is never filled, so no run starts at offset 0 and 0 can say that a node has
no run.
-/

namespace PagedGraph

/-- Bits of an offset that address a byte inside a page. -/
def placeBits : Nat := 18

/-- Bytes in a regular page. -/
def pageSize : Nat := 1 <<< placeBits

/-- The index of the page that an offset lies in. -/
def pageOf (offset : Nat) : Nat := offset >>> placeBits

/-- The place of an offset inside its page. -/
def placeOf (offset : Nat) : Nat := offset % pageSize

/-- The offset of a place inside a page. -/
def joinOffset (page place : Nat) : Nat := page <<< placeBits ||| place

theorem pageSize_pos : 0 < pageSize := by decide

theorem pageOf_eq (offset : Nat) : pageOf offset = offset / pageSize := by
  rw [pageOf, pageSize, Nat.one_shiftLeft, Nat.shiftRight_eq_div_pow]

theorem joinOffset_eq {page place : Nat} (h : place < pageSize) :
    joinOffset page place = page * pageSize + place := by
  rw [pageSize, Nat.one_shiftLeft] at *
  rw [joinOffset, Nat.shiftLeft_eq, Nat.mul_comm]
  exact (Nat.two_pow_add_eq_or_of_lt h page).symm

theorem pageOf_joinOffset {page place : Nat} (h : place < pageSize) :
    pageOf (joinOffset page place) = page := by
  rw [joinOffset_eq h, pageOf_eq, Nat.mul_comm, Nat.mul_add_div pageSize_pos,
    Nat.div_eq_of_lt h, Nat.add_zero]

theorem placeOf_joinOffset {page place : Nat} (h : place < pageSize) :
    placeOf (joinOffset page place) = place := by
  rw [joinOffset_eq h, placeOf, Nat.mul_comm, Nat.mul_add_mod, Nat.mod_eq_of_lt h]

end PagedGraph
