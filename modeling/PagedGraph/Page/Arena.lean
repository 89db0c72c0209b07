import PagedGraph.Page.Address

/-!
# Arenas

Page indices come from one `PageCounter`, shared by any number of arenas.  It starts at
1, since page 0 stays empty.  A `PageArena` fills its open page from the front and takes
a new page when a run does not fit.  The rules of `PageArena.reserve`:

* A run longer than a page gets a page of its own, of exactly its length.  That
  page is full at once, and the open page stays open.
* Any other run goes behind the bytes of the open page, if the page has room.
* If it has none, or there is no open page, the open page becomes full and a new
  page is opened.

Full pages are kept in the order they became full, the open page comes last.
Reserved bytes are zero until they are written.
-/

namespace PagedGraph

/-- The counter that page indices are taken from. -/
structure PageCounter where
  /-- The index that is given next. -/
  next : Nat := 1
deriving DecidableEq, Repr, Inhabited

namespace PageCounter

/-- Give the next index out. -/
def take (c : PageCounter) : Nat × PageCounter := (c.next, ⟨c.next + 1⟩)

/-- Slots needed for every index taken and the empty page 0. -/
def pageCount (c : PageCounter) : Nat := c.next

end PageCounter

/-- A page under construction. -/
structure Page where
  index : Nat
  /-- The bytes reserved so far. -/
  bytes : Array UInt8
deriving DecidableEq, Repr, Inhabited

namespace Page

/-- Overwrite bytes of an array from a place on. -/
def overwrite (bytes : Array UInt8) (place : Nat) : List UInt8 → Array UInt8
  | [] => bytes
  | b :: rest => overwrite (bytes.setIfInBounds place b) (place + 1) rest

/-- Overwrite bytes from a place on. -/
def write : Page → Nat → List UInt8 → Page
  | ⟨index, bytes⟩, place, run => ⟨index, overwrite bytes place run⟩

/-- Add zero bytes at the end. -/
def grow : Page → Nat → Page
  | page, 0 => page
  | ⟨index, bytes⟩, n + 1 => grow ⟨index, bytes.push 0⟩ n

end Page

/-- The pages that one worker fills. -/
structure PageArena where
  /-- The page that still takes runs. -/
  filling : Option Page := none
  /-- Full pages, the one that became full first in front. -/
  full : Array Page := #[]
deriving DecidableEq, Repr, Inhabited

namespace PageArena

/-- Whether the open page has room for `len` bytes. -/
def fits (a : PageArena) (len : Nat) : Bool :=
  match a.filling with
  | some page => page.bytes.size + len ≤ pageSize
  | none => false

/-- The open page becomes full. -/
def sealOpen : PageArena → PageArena
  | ⟨some page, full⟩ => ⟨none, full.push page⟩
  | ⟨none, full⟩ => ⟨none, full⟩

/-- Put `len` zero bytes behind those of the open page. -/
def extend : PageArena → Nat → Nat × PageArena
  | ⟨some page, full⟩, len =>
    (joinOffset page.index page.bytes.size, ⟨some (page.grow len), full⟩)
  | ⟨none, full⟩, _ => (0, ⟨none, full⟩)

/-- Reserve `len` bytes in one page.  Gives the offset of the first. -/
def reserve (c : PageCounter) (a : PageArena) (len : Nat) : Nat × PageCounter × PageArena :=
  if len > pageSize then
    let (index, c) := c.take
    (joinOffset index 0, c, { a with full := a.full.push ⟨index, Array.replicate len 0⟩ })
  else if a.fits len then
    let (offset, a) := a.extend len
    (offset, c, a)
  else
    let (index, c) := c.take
    let (offset, a) := extend { a.sealOpen with filling := some ⟨index, #[]⟩ } len
    (offset, c, a)

/-- Whether the open page has the given index. -/
def isFilling (a : PageArena) (index : Nat) : Bool :=
  match a.filling with
  | some page => page.index = index
  | none => false

/-- Overwrite bytes from an offset on, in whichever page of the arena it lies. -/
def write (a : PageArena) (offset : Nat) (bytes : List UInt8) : PageArena :=
  if a.isFilling (pageOf offset) then
    match a with
    | ⟨filling, full⟩ => ⟨filling.map (·.write (placeOf offset) bytes), full⟩
  else
    match a with
    | ⟨filling, full⟩ =>
      ⟨filling, full.map fun page =>
        if page.index = pageOf offset then page.write (placeOf offset) bytes else page⟩

/-- All pages, the open one last. -/
def pages (a : PageArena) : List Page := a.sealOpen.full.toList

/-- The bytes of the page with the given index, none if there is no such page. -/
def pageBytes (a : PageArena) (index : Nat) : Array UInt8 :=
  match a.pages.find? (·.index = index) with
  | some page => page.bytes
  | none => #[]

/-- The `len` bytes from an offset on. -/
def read (a : PageArena) (offset len : Nat) : List UInt8 :=
  ((a.pageBytes (pageOf offset)).extract (placeOf offset) (placeOf offset + len)).toList

/-- Reserve room for a run and write it. -/
def put (c : PageCounter) (a : PageArena) (run : List UInt8) : Nat × PageCounter × PageArena :=
  let (offset, c, a) := a.reserve c run.length
  (offset, c, a.write offset run)

end PageArena

end PagedGraph
