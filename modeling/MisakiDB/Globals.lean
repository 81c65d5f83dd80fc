/-!
# `globals.h`

Page ids are natural numbers and `INVALID_PAGE_ID` is `none` where an id may be
missing (a parent, a next page, a list header): the code uses its largest
32-bit value for it. So the model speaks of files of fewer than 2^32 - 1 pages:
there an id fits in its 32 bits, `nextPageID` does not wrap, and the sums the
code makes of ids are exact (`convertToDataPageID_exact`,
`convertToMapPageID_exact`). `Store.FileStore`, where ids become offsets, keeps
the 32 bits.
-/

namespace MisakiDB

inductive FileType
  | INVALID
  | INDEX
  | DATA
  | FREE_SPACE_MAP
  | BLOB
  deriving DecidableEq, Repr

abbrev PageIDType := Nat

/-- How the buffer pools name a page. -/
abbrev PageKey := FileType × PageIDType

abbrev INVALID_PAGE_ID : Option PageIDType := none

def PAGE_SIZE : Nat := 4096

def RECORD_KEY_SIZE : Nat := 24

end MisakiDB
