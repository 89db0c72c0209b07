import PagedGraph.Number.Bytes
import PagedGraph.Number.Sum
import PagedGraph.Page.Arena

/-!
# Page tables

A `PageTable` holds pages that no longer change, addressed by offsets.  Slots nobody
filled are empty.  A run of targets starts with its degree
in `degreeHeader` bytes, lowest first.  Reading outside a page gives zeros, which
no run that was allocated and written ever asks for.
-/

namespace PagedGraph

/-- Bytes of the degree in front of a run of targets. -/
def degreeHeader : Nat := 4

/-- Pages by index. -/
structure PageTable where
  /-- The pages, page 0 empty. -/
  pages : Array (Array UInt8)
deriving DecidableEq, Repr, Inhabited

namespace PageTable

/-- Put pages into their slots. -/
def ofPages (pageCount : Nat) (pages : List Page) : PageTable :=
  ⟨pages.foldl (fun table page => table.setIfInBounds page.index page.bytes)
    (Array.replicate pageCount #[])⟩

/-- Number of slots, the empty page 0 included. -/
def pageCount (s : PageTable) : Nat := s.pages.size

/-- Bytes of all pages. -/
def byteSize (s : PageTable) : Nat := addUp (s.pages.toList.map Array.size)

/-- The page that an offset lies in, empty where no page was filled. -/
def page (s : PageTable) (offset : Nat) : Array UInt8 := s.pages.getD (pageOf offset) #[]

/-- Bytes of a page from a place on. -/
def slice (page : Array UInt8) (place : Nat) : Nat → List UInt8
  | 0 => []
  | len + 1 => page.getD place 0 :: slice page (place + 1) len

/-- The degree at the front of the run at an offset.  Offset 0 is no run. -/
def degree (s : PageTable) (offset : Nat) : Nat :=
  if offset = 0 then 0
  else ofLittleEndian (slice (s.page offset) (placeOf offset) degreeHeader)

end PageTable

end PagedGraph
