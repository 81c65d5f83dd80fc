import MisakiDB.Buffer.LRUReplacer
/-!
# `BufferPoolManager`

The pool moves pages between a file store and `poolSize` frames. A page is
named by a key `κ` (a file type and a page id) and holds a content `π` whose
default value is the zeroed page. The file store is any type with the two raw
page operations.

`fetchPage` and `appendNewPage` are given in their non-waiting form. The
waiting form runs the same pieces around a wait on the pool's condition
variable (`MisakiDB.Buffer.PoolThreads`).
-/

namespace MisakiDB

/-- The raw page operations of a file store. A read gives nothing where
`readRawPage` throws: the page lies past the end of its file. -/
class PageFile (Φ : Type) (κ π : outParam Type) where
  readRawPage : Φ → κ → Option π
  writeRawPage : Φ → κ → π → Φ

export PageFile (readRawPage writeRawPage)

/-- The file store returns for a page the content last written to it. -/
class LawfulPageFile (Φ : Type) (κ π : outParam Type) [PageFile Φ κ π] : Prop where
  read_write_self : ∀ (φ : Φ) (k : κ) (p : π), readRawPage (writeRawPage φ k p) k = some p
  read_write_ne : ∀ (φ : Φ) (k q : κ) (p : π), q ≠ k → readRawPage (writeRawPage φ k p) q = readRawPage φ q

/-- A file held in memory, one content a page. -/
structure MemFile (κ π : Type) where
  page : κ → Option π

instance {κ π : Type} [DecidableEq κ] : PageFile (MemFile κ π) κ π where
  readRawPage φ k := φ.page k
  writeRawPage φ k p := ⟨Function.update φ.page k (some p)⟩

instance {κ π : Type} [DecidableEq κ] : LawfulPageFile (MemFile κ π) κ π where
  read_write_self _ _ _ := Function.update_self _ _ _
  read_write_ne _ _ _ _ h := Function.update_of_ne h _ _

/-- A frame: class `Page`. The key stands for `m_fileType` and `m_pageID`; it
is `none` while they still are `INVALID` and `INVALID_PAGE_ID`. -/
structure Page (κ π : Type) where
  key : Option κ := none
  data : π
  pinCount : Nat := 0
  isDirty : Bool := false

structure BufferPoolManager (κ π Φ : Type) where
  poolSize : Nat
  pages : FrameID → Page κ π
  fileStore : Φ
  pageTable : List (κ × FrameID)
  replacer : LRUReplacer
  freeList : List FrameID

/-- What `fetchPage` does: it returns a frame or `nullptr`, or the read of the
page throws. -/
inductive Fetched
  | page (frameID : FrameID)
  | nullptr
  | threw
  deriving DecidableEq, Repr

namespace BufferPoolManager

variable {κ π Φ : Type} [DecidableEq κ] [Inhabited π] [PageFile Φ κ π]

def init (poolSize : Nat) (fileStore : Φ) : BufferPoolManager κ π Φ where
  poolSize := poolSize
  pages _ := { data := default }
  fileStore := fileStore
  pageTable := []
  replacer := .empty
  freeList := List.range poolSize

def setPage (s : BufferPoolManager κ π Φ) (f : FrameID) (p : Page κ π) : BufferPoolManager κ π Φ :=
  { s with pages := Function.update s.pages f p }

def fetchExistentPage (s : BufferPoolManager κ π Φ) (k : κ) : Option FrameID := s.pageTable.lookup k

/-- `m_pageTable[k] = f`. -/
def setEntry (s : BufferPoolManager κ π Φ) (k : κ) (f : FrameID) : BufferPoolManager κ π Φ :=
  { s with pageTable := (k, f) :: s.pageTable.filter (fun e => e.1 ≠ k) }

/-- `m_pageTable.erase({p->m_fileType, p->m_pageID})`. -/
def eraseEntry (s : BufferPoolManager κ π Φ) (k : Option κ) : BufferPoolManager κ π Φ :=
  { s with pageTable := s.pageTable.filter (fun e => some e.1 ≠ k) }

/-- Writes a frame's bytes to the page its key names and clears its dirty bit. -/
def writeBack (s : BufferPoolManager κ π Φ) (f : FrameID) : BufferPoolManager κ π Φ :=
  { s.setPage f { s.pages f with isDirty := false } with
    fileStore := match (s.pages f).key with
      | some k => writeRawPage s.fileStore k (s.pages f).data
      | none => s.fileStore }

/-- `getVictimPage` when no frame is free. -/
def evictPage (s : BufferPoolManager κ π Φ) : Option FrameID × BufferPoolManager κ π Φ :=
  match s.replacer.victim with
  | none => (none, s)
  | some (f, replacer) =>
    let s := { s with replacer := replacer }.eraseEntry (s.pages f).key
    if (s.pages f).isDirty then (some f, s.writeBack f) else (some f, s)

def getVictimPage (s : BufferPoolManager κ π Φ) : Option FrameID × BufferPoolManager κ π Φ :=
  match s.freeList with
  | f :: rest => (some f, { s with freeList := rest })
  | [] => s.evictPage

def flushPage_helper (s : BufferPoolManager κ π Φ) (k : κ) : Bool × BufferPoolManager κ π Φ :=
  match s.fetchExistentPage k with
  | none => (false, s)
  | some f => (true, { s.setPage f { s.pages f with isDirty := false } with
      fileStore := writeRawPage s.fileStore k (s.pages f).data })

/-- `fetchPage` on a resident page. -/
def pinResident (s : BufferPoolManager κ π Φ) (f : FrameID) : BufferPoolManager κ π Φ :=
  let p := s.pages f
  let s := if p.pinCount = 0 then { s with replacer := s.replacer.pin f } else s
  s.setPage f { p with pinCount := p.pinCount + 1 }

/-- `fetchPage` once it has a frame. The pin, the table entry and the frame's
key are set before the read, which may throw. -/
def loadPage (s : BufferPoolManager κ π Φ) (k : κ) (f : FrameID) : Fetched × BufferPoolManager κ π Φ :=
  let p := { s.pages f with key := some k, pinCount := (s.pages f).pinCount + 1 }
  let s := s.setEntry k f
  match readRawPage s.fileStore k with
  | some data => (.page f, s.setPage f { p with data := data })
  | none => (.threw, s.setPage f p)

def fetchPage (s : BufferPoolManager κ π Φ) (k : κ) : Fetched × BufferPoolManager κ π Φ :=
  match s.fetchExistentPage k with
  | some f => (.page f, s.pinResident f)
  | none =>
    match s.getVictimPage with
    | (some f, s) => s.loadPage k f
    | (none, s) => (.nullptr, s)

def unpinPage (s : BufferPoolManager κ π Φ) (k : κ) (isDirty : Bool) : Bool × BufferPoolManager κ π Φ :=
  match s.fetchExistentPage k with
  | none => (true, s)
  | some f =>
    let p := { s.pages f with isDirty := (s.pages f).isDirty || isDirty }
    if p.pinCount = 0 then (false, s.setPage f p)
    else
      let s := s.setPage f { p with pinCount := p.pinCount - 1 }
      if p.pinCount - 1 = 0 then (true, { s with replacer := s.replacer.unpin f }) else (true, s)

def flushPage (s : BufferPoolManager κ π Φ) (k : κ) : Bool × BufferPoolManager κ π Φ := s.flushPage_helper k

def flushAllPages (s : BufferPoolManager κ π Φ) : BufferPoolManager κ π Φ :=
  s.pageTable.foldl (fun s e => (s.flushPage_helper e.1).2) s

/-- `appendNewPage` once it has a frame: the zeroed page is written to the file
at once. -/
def newPage (s : BufferPoolManager κ π Φ) (k : κ) (f : FrameID) : BufferPoolManager κ π Φ :=
  let p := { s.pages f with key := some k, pinCount := (s.pages f).pinCount + 1, data := default }
  (((s.setEntry k f).setPage f p).flushPage_helper k).2

def appendNewPage (s : BufferPoolManager κ π Φ) (k : κ) : Option FrameID × BufferPoolManager κ π Φ :=
  match s.getVictimPage with
  | (some f, s) => (some f, s.newPage k f)
  | (none, s) => (none, s)

/-- A client's store to a page it holds, through the pointer to its frame. -/
def writeData (s : BufferPoolManager κ π Φ) (f : FrameID) (data : π) : BufferPoolManager κ π Φ :=
  s.setPage f { s.pages f with data := data }

end BufferPoolManager

end MisakiDB
