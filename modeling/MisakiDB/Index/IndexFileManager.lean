import MisakiDB.Index.TreePage
/-!
# `IndexFileManager`

Programs that run in the index pool. Page 0 is the header; the free pages form
a list through their own `nextFreePageID`. The object they run for is a
`BPlusTree`, whose members are its root page id and its two page capacities.
-/

namespace MisakiDB

/-- The members of a `BPlusTree` object. -/
structure BPlusTree where
  rootPageID : Option PageIDType
  leafMaxSize : Nat
  internalMaxSize : Nat
  deriving Repr, DecidableEq

/-- Programs in the index pool, whichever classes its pages are of. -/
abbrev FileProg (L I α : Type) := PageProg PageIDType (IndexFilePage L I) BPlusTree α

abbrev IndexProg (K V α : Type) := PageProg PageIDType (IndexPage K V) BPlusTree α

abbrev IndexStore (K V : Type) := PageStore PageIDType (IndexPage K V) BPlusTree

section Access
variable {L I α : Type}

/-- An assertion, or an exception: `none` ends the program. -/
def require : Option α → FileProg L I α
  | some a => pure a
  | none => Prog.fail

def getHeader : FileProg L I IndexFileHeader := do
  match ← getData 0 with
  | .header h => pure h
  | _ => Prog.fail

def getFreePage (p : PageIDType) : FileProg L I IndexFileFreePage := do
  match ← getData p with
  | .free f => pure f
  | _ => Prog.fail

def getLeaf (p : PageIDType) : FileProg L I L := do
  match ← getData p with
  | .leaf l => pure l
  | _ => Prog.fail

def getInternal (p : PageIDType) : FileProg L I I := do
  match ← getData p with
  | .internal i => pure i
  | _ => Prog.fail

def setLeaf (p : PageIDType) (l : L) : FileProg L I Unit := setData p (.leaf l)

def setInternal (p : PageIDType) (i : I) : FileProg L I Unit := setData p (.internal i)

variable [TreePage L] [TreePage I]

def getNode (p : PageIDType) : FileProg L I BPlusTreePage := do require (← getData p).node

def setParentPageID (p : PageIDType) (parent : Option PageIDType) : FileProg L I Unit := do
  setData p ((← getData p).setParentPageID parent)

end Access

variable {L I : Type}

def newIndexPage : FileProg L I PageIDType := do
  fetchPage 0
  let header ← getHeader
  let rawNewPage ←
    match header.freePageListHeader with
    | none => do
      appendNewPage header.nextPageID
      setData 0 (.header { header with nextPageID := header.nextPageID + 1 })
      pure header.nextPageID
    | some free => do
      fetchPage free
      let newPage ← getFreePage free
      setData 0 (.header { header with freePageListHeader := newPage.nextFreePageID })
      setData free .zero
      pure free
  unpinPage 0 true
  pure rawNewPage

/-- Refuses the header, an id past the end, a page somebody has pinned and a
page that is free already. -/
def deleteIndexPage (pageID : PageIDType) : FileProg L I Bool := do
  fetchPage 0
  let header ← getHeader
  if pageID < 1 ∨ header.nextPageID ≤ pageID then
    unpinPage 0 false
    pure false
  else
    fetchPage pageID
    if (← getPinCount pageID) ≠ 1 then
      unpinPage pageID false
      unpinPage 0 false
      pure false
    else
      match ← getData pageID with
      | .free _ =>
        unpinPage pageID false
        unpinPage 0 false
        pure false
      | _ =>
        setData pageID (.free { nextFreePageID := header.freePageListHeader })
        setData 0 (.header { header with freePageListHeader := some pageID })
        unpinPage pageID true
        unpinPage 0 true
        pure true

end MisakiDB
