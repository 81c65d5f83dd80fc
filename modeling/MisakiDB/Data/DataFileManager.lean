import MisakiDB.Data.BlobPage
import MisakiDB.Data.FreeSpaceMap
import MisakiDB.Buffer.PageStore
/-!
# `DataFileManager`

Programs that run in the data pool, over the data, the free-space-map and the blob
file. Page 0 of each is its header. The object they run for is a `DataAccessor`,
whose member is the last blob id given out.
-/

namespace MisakiDB

structure BlobFileHeader where
  nextPageID : PageIDType
  freePageListHeader : Option PageIDType
  deriving DecidableEq

/-- What a page of the three files can be. A new page is zero until it is
initialised as something. -/
inductive FilePage
  | zero
  | dataHeader (nextPageID : PageIDType)
  | data (raw : RawPage)
  | mapHeader (nextPageID : PageIDType)
  | map (page : FreeSpaceMapFilePage)
  | blobHeader (header : BlobFileHeader)
  | blob (page : BlobPage)

instance : Inhabited FilePage := ⟨.zero⟩

/-- The members of a `DataAccessor` object. -/
structure DataAccessor where
  nextBlobID : Nat
  deriving DecidableEq

abbrev DataProg (α : Type) := PageProg PageKey FilePage DataAccessor α

abbrev DataStore := PageStore PageKey FilePage DataAccessor

/-! ## Reading a page as what it is -/

namespace FilePage

def asDataHeader : FilePage → Option PageIDType
  | dataHeader n => some n
  | _ => none

def asData : FilePage → Option RawPage
  | data raw => some raw
  | zero => some fun _ => 0
  | _ => none

def asMapHeader : FilePage → Option PageIDType
  | mapHeader n => some n
  | _ => none

def asMap : FilePage → Option FreeSpaceMapFilePage
  | map m => some m
  | zero => some fun _ => ⟨0, 0⟩
  | _ => none

def asBlobHeader : FilePage → Option BlobFileHeader
  | blobHeader h => some h
  | _ => none

def asBlob : FilePage → Option BlobPage
  | blob b => some b
  | zero => some default
  | _ => none

end FilePage

def dataKey (p : PageIDType) : PageKey := (.DATA, p)
def mapKey (p : PageIDType) : PageKey := (.FREE_SPACE_MAP, p)
def blobKey (p : PageIDType) : PageKey := (.BLOB, p)

/-- An assertion, or undefined behaviour: `none` ends the program. -/
def demand {α : Type} : Option α → DataProg α
  | some a => pure a
  | none => Prog.fail

def getDataHeader : DataProg PageIDType := do demand (← getData (dataKey 0)).asDataHeader
def getDataPage (p : PageIDType) : DataProg RawPage := do demand (← getData (dataKey p)).asData
def getMapHeader : DataProg PageIDType := do demand (← getData (mapKey 0)).asMapHeader
def getMapPage (p : PageIDType) : DataProg FreeSpaceMapFilePage := do demand (← getData (mapKey p)).asMap
def getBlobHeader : DataProg BlobFileHeader := do demand (← getData (blobKey 0)).asBlobHeader
def getBlobPage (p : PageIDType) : DataProg BlobPage := do demand (← getData (blobKey p)).asBlob

/-- What a page of the store reads as. -/
def pageAs {α : Type} (s : DataStore) (k : PageKey) (view : FilePage → Option α) : Option α := (s.page k).bind view

section Keys
variable {p q : PageIDType}

@[simp] theorem dataKey_inj : dataKey p = dataKey q ↔ p = q := by simp [dataKey]
@[simp] theorem mapKey_inj : mapKey p = mapKey q ↔ p = q := by simp [mapKey]
@[simp] theorem blobKey_inj : blobKey p = blobKey q ↔ p = q := by simp [blobKey]
@[simp] theorem dataKey_ne_mapKey : dataKey p ≠ mapKey q := by simp [dataKey, mapKey]
@[simp] theorem mapKey_ne_dataKey : mapKey p ≠ dataKey q := by simp [dataKey, mapKey]
@[simp] theorem dataKey_ne_blobKey : dataKey p ≠ blobKey q := by simp [dataKey, blobKey]
@[simp] theorem blobKey_ne_dataKey : blobKey p ≠ dataKey q := by simp [dataKey, blobKey]
@[simp] theorem mapKey_ne_blobKey : mapKey p ≠ blobKey q := by simp [mapKey, blobKey]
@[simp] theorem blobKey_ne_mapKey : blobKey p ≠ mapKey q := by simp [mapKey, blobKey]

end Keys

section Rules
open Prog PageStore
variable {α : Type} {s : DataStore} {p : PageIDType}

@[simp] theorem wp_demand {o : Option α} {Q : α → DataStore → Prop} :
    wp exec (demand o) Q s ↔ ∃ a, o = some a ∧ Q a s := by
  cases o <;> simp [demand]

@[simp] theorem wlp_demand {o : Option α} {Q : α → DataStore → Prop} :
    wlp exec (demand o) Q s ↔ ∀ a, o = some a → Q a s := by
  cases o <;> simp [demand]

theorem wp_view {k : PageKey} {view : FilePage → Option α} {Q : α → DataStore → Prop} :
    wp exec (do demand (view (← getData k))) Q s ↔ ∃ a, pageAs s k view = some a ∧ Q a s := by
  rw [wp_bind, wp_getData, pageAs]
  cases s.page k <;> simp

theorem wlp_view {k : PageKey} {view : FilePage → Option α} {Q : α → DataStore → Prop} :
    wlp exec (do demand (view (← getData k))) Q s ↔ ∀ a, pageAs s k view = some a → Q a s := by
  rw [wlp_bind, wlp_getData, pageAs]
  cases s.page k <;> simp

@[simp] theorem wp_getDataHeader {Q : PageIDType → DataStore → Prop} : wp exec getDataHeader Q s ↔
    ∃ n, pageAs s (dataKey 0) FilePage.asDataHeader = some n ∧ Q n s := wp_view
@[simp] theorem wp_getDataPage {Q : RawPage → DataStore → Prop} : wp exec (getDataPage p) Q s ↔
    ∃ raw, pageAs s (dataKey p) FilePage.asData = some raw ∧ Q raw s := wp_view
@[simp] theorem wp_getMapHeader {Q : PageIDType → DataStore → Prop} : wp exec getMapHeader Q s ↔
    ∃ n, pageAs s (mapKey 0) FilePage.asMapHeader = some n ∧ Q n s := wp_view
@[simp] theorem wp_getMapPage {Q : FreeSpaceMapFilePage → DataStore → Prop} : wp exec (getMapPage p) Q s ↔
    ∃ m, pageAs s (mapKey p) FilePage.asMap = some m ∧ Q m s := wp_view
@[simp] theorem wp_getBlobHeader {Q : BlobFileHeader → DataStore → Prop} : wp exec getBlobHeader Q s ↔
    ∃ h, pageAs s (blobKey 0) FilePage.asBlobHeader = some h ∧ Q h s := wp_view
@[simp] theorem wp_getBlobPage {Q : BlobPage → DataStore → Prop} : wp exec (getBlobPage p) Q s ↔
    ∃ b, pageAs s (blobKey p) FilePage.asBlob = some b ∧ Q b s := wp_view

@[simp] theorem wlp_getDataHeader {Q : PageIDType → DataStore → Prop} : wlp exec getDataHeader Q s ↔
    ∀ n, pageAs s (dataKey 0) FilePage.asDataHeader = some n → Q n s := wlp_view
@[simp] theorem wlp_getDataPage {Q : RawPage → DataStore → Prop} : wlp exec (getDataPage p) Q s ↔
    ∀ raw, pageAs s (dataKey p) FilePage.asData = some raw → Q raw s := wlp_view
@[simp] theorem wlp_getMapHeader {Q : PageIDType → DataStore → Prop} : wlp exec getMapHeader Q s ↔
    ∀ n, pageAs s (mapKey 0) FilePage.asMapHeader = some n → Q n s := wlp_view
@[simp] theorem wlp_getMapPage {Q : FreeSpaceMapFilePage → DataStore → Prop} : wlp exec (getMapPage p) Q s ↔
    ∀ m, pageAs s (mapKey p) FilePage.asMap = some m → Q m s := wlp_view
@[simp] theorem wlp_getBlobHeader {Q : BlobFileHeader → DataStore → Prop} : wlp exec getBlobHeader Q s ↔
    ∀ h, pageAs s (blobKey 0) FilePage.asBlobHeader = some h → Q h s := wlp_view
@[simp] theorem wlp_getBlobPage {Q : BlobPage → DataStore → Prop} : wlp exec (getBlobPage p) Q s ↔
    ∀ b, pageAs s (blobKey p) FilePage.asBlob = some b → Q b s := wlp_view

end Rules

namespace DataFileManager

/-! ## Data pages and their map -/

def convertToDataPageID (mapPageID : PageIDType) (mapIndex : Fin FreeSpaceMapFilePage.MAX_SIZE) : PageIDType :=
  (mapPageID - 1) * FreeSpaceMapFilePage.MAX_SIZE + mapIndex + 1

def convertToMapPageID (dataPageID : PageIDType) : PageIDType := (dataPageID - 1) / FreeSpaceMapFilePage.MAX_SIZE + 1

def convertToMapIndex (dataPageID : PageIDType) : Fin FreeSpaceMapFilePage.MAX_SIZE :=
  ⟨(dataPageID - 1) % FreeSpaceMapFilePage.MAX_SIZE, Nat.mod_lt _ (by decide)⟩

/-- The first entry of the page that fits. -/
def firstFit (m : FreeSpaceMapFilePage) (recordSize : Nat) : Option (Fin FreeSpaceMapFilePage.MAX_SIZE) :=
  (List.finRange FreeSpaceMapFilePage.MAX_SIZE).find? fun j => (m j).fits recordSize

/-- One round of the loop over the map pages: the data page found and charged. -/
def searchMapPage (recordSize : Nat) (i : PageIDType) : DataProg (Option PageIDType) := do
  fetchPage (mapKey i)
  let mapPage ← getMapPage i
  match firstFit mapPage recordSize with
  | some j => do
    setData (mapKey i) (.map (mapPage.subFreeSpace j (0 < (mapPage j).invalidSlotNum) recordSize))
    unpinPage (mapKey i) false
    pure (some (convertToDataPageID i j))
  | none => do
    unpinPage (mapKey i) false
    pure none

/-- The loop, from map page `i` on. -/
def searchMap (recordSize : Nat) : Nat → PageIDType → DataProg (Option PageIDType)
  | 0, _ => pure none
  | rest + 1, i => do
    match ← searchMapPage recordSize i with
    | some dataPageID => pure (some dataPageID)
    | none => searchMap recordSize rest (i + 1)

/-- The first half of `allocateDataPage`, under the map header's latch: search and
reserve. -/
def reserve (recordSize : Nat) : DataProg PageIDType := do
  fetchPage (mapKey 0)
  wLatch (mapKey 0)
  let nextPageID ← getMapHeader
  match ← searchMap recordSize (nextPageID - 1) 1 with
  | none => do
    -- the new map page is written after it was unpinned
    appendNewPage (mapKey nextPageID)
    unpinPage (mapKey nextPageID) false
    setData (mapKey nextPageID)
      (.map (FreeSpaceMapFilePage.init.subFreeSpace ⟨0, by decide⟩ false recordSize))
    setData (mapKey 0) (.mapHeader (nextPageID + 1))
    wUnlatch (mapKey 0)
    unpinPage (mapKey 0) true
    pure (convertToDataPageID nextPageID ⟨0, by decide⟩)
  | some dataPageID => do
    wUnlatch (mapKey 0)
    unpinPage (mapKey 0) false
    pure dataPageID

/-- The second half, under the data header's latch: make the page, or fetch it. -/
def obtain (dataPageID : PageIDType) : DataProg Unit := do
  fetchPage (dataKey 0)
  wLatch (dataKey 0)
  let nextPageID ← getDataHeader
  if nextPageID ≤ dataPageID then
    appendNewPage (dataKey dataPageID)
    setData (dataKey dataPageID) (.data (DataFilePage.init fun _ => 0))
    setData (dataKey 0) (.dataHeader (nextPageID + 1))
    wUnlatch (dataKey 0)
    unpinPage (dataKey 0) true
  else
    fetchPage (dataKey dataPageID)
    wUnlatch (dataKey 0)
    unpinPage (dataKey 0) false

/-- The page comes pinned. -/
def allocateDataPage (recordSize : Nat) : DataProg PageIDType := do
  let dataPageID ← reserve recordSize
  obtain dataPageID
  pure dataPageID

def addFreeSpace (pageID : PageIDType) (recordSize : Nat) : DataProg Unit := do
  let mapPageID := convertToMapPageID pageID
  fetchPage (mapKey mapPageID)
  wLatch (mapKey mapPageID)
  let mapPage ← getMapPage mapPageID
  setData (mapKey mapPageID) (.map (mapPage.addFreeSpace (convertToMapIndex pageID) recordSize))
  wUnlatch (mapKey mapPageID)
  unpinPage (mapKey mapPageID) true

/-! ## Blob pages -/

/-- The page comes pinned. -/
def newBlobPage : DataProg PageIDType := do
  fetchPage (blobKey 0)
  wLatch (blobKey 0)
  let header ← getBlobHeader
  let newPageID ←
    match header.freePageListHeader with
    | none => do
      appendNewPage (blobKey header.nextPageID)
      wLatch (blobKey header.nextPageID)
      setData (blobKey 0) (.blobHeader { header with nextPageID := header.nextPageID + 1 })
      pure header.nextPageID
    | some free => do
      fetchPage (blobKey free)
      wLatch (blobKey free)
      let newPage ← getBlobPage free
      setData (blobKey 0) (.blobHeader { header with freePageListHeader := newPage.next })
      pure free
  setData (blobKey newPageID) (.blob (← getBlobPage newPageID).init)
  wUnlatch (blobKey newPageID)
  wUnlatch (blobKey 0)
  unpinPage (blobKey 0) true
  pure newPageID

def deleteBlobPage (pageID : PageIDType) : DataProg Bool := do
  fetchPage (blobKey 0)
  wLatch (blobKey 0)
  let header ← getBlobHeader
  if pageID < 1 ∨ header.nextPageID ≤ pageID then
    wUnlatch (blobKey 0)
    unpinPage (blobKey 0) false
    pure false
  else
    fetchPage (blobKey pageID)
    wLatch (blobKey pageID)
    let page ← getBlobPage pageID
    if page.isFreePage then
      wUnlatch (blobKey pageID)
      wUnlatch (blobKey 0)
      unpinPage (blobKey pageID) false
      unpinPage (blobKey 0) false
      pure false
    else
      setData (blobKey pageID) (.blob { page.initFree with next := header.freePageListHeader })
      setData (blobKey 0) (.blobHeader { header with freePageListHeader := some pageID })
      wUnlatch (blobKey pageID)
      wUnlatch (blobKey 0)
      unpinPage (blobKey pageID) true
      unpinPage (blobKey 0) true
      pure true

end DataFileManager

end MisakiDB
