import MisakiDB.Globals
import MisakiDB.Buffer.PageStore
import Mathlib.Data.List.DropRight
import Mathlib.Order.Lattice
/-!
# The pages of the index file

The B+ tree's leaf and internal pages with the functions of their classes that
touch one page only, the index file's header and free pages, and `IndexFilePage`,
what a page of the file can be. An array of `m_size` entries is a list, so a
size is a length. A page that is read as something it is not has no result.

The first key of an internal page is never looked at: the code leaves it
uninitialised in a new root and stale after a split.
-/

namespace MisakiDB

/-! ## Leaf pages -/

structure LeafPage (K V : Type) where
  pageID : PageIDType
  parentPageID : Option PageIDType
  maxSize : Nat
  nextPageID : Option PageIDType
  array : List (K × V)
  deriving Repr, DecidableEq

namespace LeafPage
variable {K V : Type} [LinearOrder K]

def init (pageID : PageIDType) (parentID : Option PageIDType) (maxSize : Nat) : LeafPage K V :=
  { pageID, parentPageID := parentID, maxSize, nextPageID := INVALID_PAGE_ID, array := [] }

def getSize (p : LeafPage K V) : Nat := p.array.length

def getMinSize (p : LeafPage K V) : Nat := p.maxSize / 2

def keyAt (p : LeafPage K V) (index : Nat) : Option K := p.array[index]?.map (·.1)

def getItem (p : LeafPage K V) (index : Nat) : Option (K × V) := p.array[index]?

/-- The first index whose key is not smaller, or the size. -/
def keyIndex (p : LeafPage K V) (key : K) : Nat := (p.array.takeWhile fun e => e.1 < key).length

/-- Entries move up from the back while their key is larger. -/
def insert (p : LeafPage K V) (key : K) (value : V) : LeafPage K V :=
  { p with array := p.array.rdropWhile (fun e => key < e.1) ++ (key, value) :: p.array.rtakeWhile (fun e => key < e.1) }

def lookup (p : LeafPage K V) (key : K) : Option V := (p.array.find? fun e => e.1 = key).map (·.2)

def removeAndDeleteRecord (p : LeafPage K V) (key : K) : Option V × LeafPage K V :=
  match p.array.find? fun e => e.1 = key with
  | none => (none, p)
  | some e => (some e.2, { p with array := p.array.eraseP fun e => e.1 = key })

def copyNFrom (p : LeafPage K V) (items : List (K × V)) : LeafPage K V := { p with array := p.array ++ items }

def copyLastFrom (p : LeafPage K V) (item : K × V) : LeafPage K V := { p with array := p.array ++ [item] }

def copyFirstFrom (p : LeafPage K V) (item : K × V) : LeafPage K V := { p with array := item :: p.array }

def setSize (p : LeafPage K V) (size : Nat) : LeafPage K V := { p with array := p.array.take size }

end LeafPage

/-! ## Internal pages -/

structure InternalPage (K : Type) where
  pageID : PageIDType
  parentPageID : Option PageIDType
  maxSize : Nat
  array : List (K × PageIDType)
  deriving Repr, DecidableEq

namespace InternalPage
variable {K : Type}

/-- An internal page takes at least four entries. -/
def init (pageID : PageIDType) (parentID : Option PageIDType) (maxSize : Nat) : InternalPage K :=
  { pageID, parentPageID := parentID, maxSize := max maxSize 4, array := [] }

def getSize (p : InternalPage K) : Nat := p.array.length

def getMinSize (p : InternalPage K) : Nat := p.maxSize / 2

def keyAt (p : InternalPage K) (index : Nat) : Option K := p.array[index]?.map (·.1)

def valueAt (p : InternalPage K) (index : Nat) : Option PageIDType := p.array[index]?.map (·.2)

def setKeyAt (p : InternalPage K) (index : Nat) (key : K) : Option (InternalPage K) :=
  if index < p.getSize then some { p with array := p.array.modify index fun e => (key, e.2) } else none

def valueIndex (p : InternalPage K) (value : PageIDType) : Option Nat := p.array.findIdx? fun e => e.2 = value

/-- The loop of `lookup`: `child` is the entry before the ones still to try. -/
def lookupFrom [LinearOrder K] (key : K) (child : PageIDType) : List (K × PageIDType) → PageIDType
  | [] => child
  | e :: rest => if key < e.1 then child else lookupFrom key e.2 rest

def lookup [LinearOrder K] (p : InternalPage K) (key : K) : Option PageIDType :=
  match p.array with
  | [] => none
  | e :: rest => some (lookupFrom key e.2 rest)

def populateNewRoot [Inhabited K] (p : InternalPage K) (oldValue : PageIDType) (newKey : K) (newValue : PageIDType) :
    Option (InternalPage K) :=
  if p.parentPageID = INVALID_PAGE_ID ∧ p.getSize = 0 then
    some { p with array := [(default, oldValue), (newKey, newValue)] }
  else none

/-- Entries move up from the back until the one of `oldValue` is met. -/
def insertNodeAfter (p : InternalPage K) (oldValue : PageIDType) (newKey : K) (newValue : PageIDType) :
    Option (InternalPage K) :=
  match p.array.rdropWhile fun e => e.2 ≠ oldValue with
  | [] => none
  | kept => some { p with array := kept ++ (newKey, newValue) :: p.array.rtakeWhile fun e => e.2 ≠ oldValue }

def remove (p : InternalPage K) (index : Nat) : Option (InternalPage K) :=
  if index < p.getSize then some { p with array := p.array.eraseIdx index } else none

def append (p : InternalPage K) (item : K × PageIDType) : InternalPage K := { p with array := p.array ++ [item] }

def prepend (p : InternalPage K) (item : K × PageIDType) : InternalPage K := { p with array := item :: p.array }

def setSize (p : InternalPage K) (size : Nat) : InternalPage K := { p with array := p.array.take size }

end InternalPage

/-! ## The file -/

structure IndexFileHeader where
  nextPageID : Nat
  rootPageID : Option PageIDType
  freePageListHeader : Option PageIDType
  deriving Repr, DecidableEq

def IndexFileHeader.init : IndexFileHeader :=
  { nextPageID := 1, rootPageID := INVALID_PAGE_ID, freePageListHeader := INVALID_PAGE_ID }

structure IndexFileFreePage where
  nextFreePageID : Option PageIDType
  deriving Repr, DecidableEq

/-- The fields every tree page has. -/
structure BPlusTreePage where
  isLeafPage : Bool
  pageID : PageIDType
  parentPageID : Option PageIDType
  size : Nat
  maxSize : Nat
  deriving Repr, DecidableEq

namespace BPlusTreePage

def isRootPage (n : BPlusTreePage) : Bool := n.parentPageID = INVALID_PAGE_ID

def getMinSize (n : BPlusTreePage) : Nat := n.maxSize / 2

end BPlusTreePage

/-- What a page class of the tree has from its base class. -/
class TreePage (P : Type) where
  base : P → BPlusTreePage
  setParentPageID : Option PageIDType → P → P

/-- How a search passes an internal page. -/
class Branching (K : outParam Type) (I : Type) where
  valueAt : I → Nat → Option PageIDType
  lookup : I → K → Option PageIDType

/-- What a page of the file can be, whichever classes its leaf and internal
pages are of. -/
inductive IndexFilePage (L I : Type)
  | zero
  | header (h : IndexFileHeader)
  | free (f : IndexFileFreePage)
  | leaf (p : L)
  | internal (p : I)
  deriving Repr, DecidableEq

namespace IndexFilePage
variable {L I : Type}

instance : Inhabited (IndexFilePage L I) := ⟨.zero⟩

variable [TreePage L] [TreePage I]

def node : IndexFilePage L I → Option BPlusTreePage
  | .leaf p => some (TreePage.base p)
  | .internal p => some (TreePage.base p)
  | _ => none

def setParentPageID (parent : Option PageIDType) : IndexFilePage L I → IndexFilePage L I
  | .leaf p => .leaf (TreePage.setParentPageID parent p)
  | .internal p => .internal (TreePage.setParentPageID parent p)
  | pg => pg

end IndexFilePage

/-! ## Pages with their entries in lists -/

abbrev IndexPage (K V : Type) := IndexFilePage (LeafPage K V) (InternalPage K)

section
variable {K V : Type}

instance : TreePage (LeafPage K V) where
  base p := ⟨true, p.pageID, p.parentPageID, p.array.length, p.maxSize⟩
  setParentPageID parent p := { p with parentPageID := parent }

instance : TreePage (InternalPage K) where
  base p := ⟨false, p.pageID, p.parentPageID, p.array.length, p.maxSize⟩
  setParentPageID parent p := { p with parentPageID := parent }

instance [LinearOrder K] : Branching K (InternalPage K) where
  valueAt := InternalPage.valueAt
  lookup := InternalPage.lookup

@[simp] theorem branching_valueAt [LinearOrder K] (p : InternalPage K) (index : Nat) :
    Branching.valueAt p index = p.valueAt index := rfl

@[simp] theorem branching_lookup [LinearOrder K] (p : InternalPage K) (key : K) :
    Branching.lookup p key = p.lookup key := rfl

namespace IndexFilePage

@[simp] theorem node_leaf (p : LeafPage K V) : (leaf p : IndexPage K V).node =
    some ⟨true, p.pageID, p.parentPageID, p.array.length, p.maxSize⟩ := rfl

@[simp] theorem node_internal (p : InternalPage K) : (internal p : IndexPage K V).node =
    some ⟨false, p.pageID, p.parentPageID, p.array.length, p.maxSize⟩ := rfl

@[simp] theorem setParentPageID_leaf (parent : Option PageIDType) (p : LeafPage K V) :
    (leaf p : IndexPage K V).setParentPageID parent = .leaf { p with parentPageID := parent } := rfl

@[simp] theorem setParentPageID_internal (parent : Option PageIDType) (p : InternalPage K) :
    (internal p : IndexPage K V).setParentPageID parent = .internal { p with parentPageID := parent } := rfl

end IndexFilePage
end

end MisakiDB
