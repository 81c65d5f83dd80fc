import MisakiDB.Data.DataFileManager
/-!
# `DataAccessor`

Records by record id. A value of more than `MAX_RECORD_SIZE` bytes goes into a chain
of blob pages, and its record holds the four bytes of the first page's id. The
loops over a chain take the most pages they may visit (`fuel`).
-/

namespace MisakiDB

structure RecordIDType where
  pageID : PageIDType
  slotArrayIndex : Nat
  deriving DecidableEq, Repr

namespace DataAccessor

open DataFileManager

/-- The bytes of a page id, which has four of them. -/
def bytesOf (pageID : PageIDType) : Option (List Byte) :=
  if pageID < 2 ^ 32 - 1 then some (leBytes 4 pageID) else none

def pageIDOf (bytes : List Byte) : Option PageIDType :=
  let n := leNat (bytes.take 4)
  if n = 2 ^ 32 - 1 then INVALID_PAGE_ID else some n

/-! ## Blobs -/

/-- The rounds of `insertBlob` after the first: `prevPage` is pinned and latched. -/
def insertBlobRest (blobID : Nat) : Nat → PageIDType → List Byte → DataProg PageIDType
  | 0, prevPage, _ => pure prevPage
  | fuel + 1, prevPage, value =>
    if value = [] then pure prevPage
    else do
      let newPage ← newBlobPage
      wLatch (blobKey newPage)
      setData (blobKey newPage) (.blob { (← getBlobPage newPage) with blobID })
      setData (blobKey newPage) (.blob ((← getBlobPage newPage).setIsBlobListHead false))
      setData (blobKey prevPage) (.blob { (← getBlobPage prevPage) with next := some newPage })
      wUnlatch (blobKey prevPage)
      unpinPage (blobKey prevPage) true
      let sizeToInsert := min value.length BlobPage.NonHead.MAX_DATA_SIZE
      setData (blobKey newPage) (.blob (BlobPage.NonHead.writeData (← getBlobPage newPage) (value.take sizeToInsert)))
      insertBlobRest blobID fuel newPage (value.drop sizeToInsert)

/-- An empty value is not written at all: there is no last page to unlatch. -/
def insertBlob (key value : List Byte) : DataProg (List Byte) := do
  let blobID := (← getMember).nextBlobID + 1
  setMember { nextBlobID := blobID }
  if value = [] then Prog.fail
  else
    let firstPageID ← newBlobPage
    wLatch (blobKey firstPageID)
    setData (blobKey firstPageID) (.blob { (← getBlobPage firstPageID) with blobID })
    setData (blobKey firstPageID) (.blob ((← getBlobPage firstPageID).setIsBlobListHead false))
    setData (blobKey firstPageID) (.blob (BlobPage.Head.setKey (← getBlobPage firstPageID) key))
    let sizeToInsert := min value.length BlobPage.Head.MAX_DATA_SIZE
    setData (blobKey firstPageID) (.blob (BlobPage.Head.writeData (← getBlobPage firstPageID) (value.take sizeToInsert)))
    let lastPage ← insertBlobRest blobID value.length firstPageID (value.drop sizeToInsert)
    wUnlatch (blobKey lastPage)
    unpinPage (blobKey lastPage) true
    -- the flag that makes the blob readable
    fetchPage (blobKey firstPageID)
    wLatch (blobKey firstPageID)
    setData (blobKey firstPageID) (.blob ((← getBlobPage firstPageID).setIsBlobListHead true))
    wUnlatch (blobKey firstPageID)
    unpinPage (blobKey firstPageID) true
    demand (bytesOf firstPageID)

/-- Leave a page that does not belong to the blob. -/
def giveUp (page : PageIDType) : DataProg (Option (List Byte)) := do
  rUnlatch (blobKey page)
  unpinPage (blobKey page) false
  pure none

/-- The rounds of `getBlob` after the first. -/
def getBlobRest (blobID : Nat) : Nat → Option PageIDType → List Byte → DataProg (Option (List Byte))
  | _, none, blob => pure (some blob)
  | 0, some _, _ => Prog.fail
  | fuel + 1, some page, blob => do
    fetchPage (blobKey page)
    rLatch (blobKey page)
    let blobPage ← getBlobPage page
    if blobPage.isFreePage then giveUp page
    else if blobPage.isBlobListHead then giveUp page
    else if blobPage.blobID ≠ blobID then giveUp page
    else do
      rUnlatch (blobKey page)
      unpinPage (blobKey page) false
      getBlobRest blobID fuel blobPage.next (blob ++ BlobPage.NonHead.readData blobPage)

def getBlob (fuel : Nat) (key blobFirstPageID : List Byte) : DataProg (Option (List Byte)) :=
  match pageIDOf blobFirstPageID with
  | none => pure (some [])
  | some page => do
    fetchPage (blobKey page)
    rLatch (blobKey page)
    let blobPage ← getBlobPage page
    if blobPage.isFreePage then giveUp page
    else if ¬ blobPage.isBlobListHead then giveUp page
    else if BlobPage.Head.getKey blobPage ≠ key then giveUp page
    else do
      rUnlatch (blobKey page)
      unpinPage (blobKey page) false
      getBlobRest blobPage.blobID fuel blobPage.next (BlobPage.Head.readData blobPage)

def removeBlobFrom : Nat → Option PageIDType → DataProg Unit
  | _, none => pure ()
  | 0, some _ => Prog.fail
  | fuel + 1, some page => do
    fetchPage (blobKey page)
    rLatch (blobKey page)
    let blobPage ← getBlobPage page
    rUnlatch (blobKey page)
    unpinPage (blobKey page) false
    let _ ← deleteBlobPage page
    removeBlobFrom fuel blobPage.next

def removeBlob (fuel : Nat) (blobFirstPageID : List Byte) : DataProg Unit :=
  removeBlobFrom fuel (pageIDOf blobFirstPageID)

/-! ## Records -/

/-- When there is no value, the page stays latched and pinned. -/
def getRecordValue (fuel : Nat) (key : List Byte) (recordID : RecordIDType) : DataProg (Option (List Byte)) := do
  fetchPage (dataKey recordID.pageID)
  rLatch (dataKey recordID.pageID)
  let targetPage ← getDataPage recordID.pageID
  match ← demand (DataFilePage.getRecordValue targetPage key recordID.slotArrayIndex) with
  | none => pure none
  | some (recordValue, isBlob) => do
    rUnlatch (dataKey recordID.pageID)
    unpinPage (dataKey recordID.pageID) false
    if isBlob then getBlob fuel key recordValue else pure (some recordValue)

def removeRecord (fuel : Nat) (recordID : RecordIDType) : DataProg Unit := do
  fetchPage (dataKey recordID.pageID)
  wLatch (dataKey recordID.pageID)
  let targetPage ← getDataPage recordID.pageID
  let (removeResult, targetPage) ← demand (DataFilePage.removeRecord targetPage recordID.slotArrayIndex)
  setData (dataKey recordID.pageID) (.data targetPage)
  wUnlatch (dataKey recordID.pageID)
  unpinPage (dataKey recordID.pageID) true
  match removeResult with
  | .inl recordSize => addFreeSpace recordID.pageID recordSize.toNat
  | .inr blobFirstPageID => do
    addFreeSpace recordID.pageID blobFirstPageID.length
    removeBlob fuel blobFirstPageID

/-- Store the record and hand back the page. -/
def placeRecord (record : List Byte) (isBlob : Bool) : DataProg RecordIDType := do
  let pageID ← allocateDataPage record.length
  wLatch (dataKey pageID)
  let targetPage ← getDataPage pageID
  let (slotArrayIndex, targetPage) ← demand (DataFilePage.insertRecord targetPage record isBlob)
  setData (dataKey pageID) (.data targetPage)
  wUnlatch (dataKey pageID)
  unpinPage (dataKey pageID) true
  pure ⟨pageID, slotArrayIndex⟩

def insertRecord (key value : List Byte) : DataProg RecordIDType :=
  if key.length ≠ RECORD_KEY_SIZE then Prog.fail
  else if DataFilePage.MAX_RECORD_SIZE < value.length then do
    let blobFirstPageID ← insertBlob key value
    placeRecord (key ++ blobFirstPageID) true
  else placeRecord (key ++ value) false

/-- The files of a new database, which hold their headers. -/
def newDataStore : DataStore where
  page k :=
    if k = dataKey 0 then some (.dataHeader 1)
    else if k = mapKey 0 then some (.mapHeader 1)
    else if k = blobKey 0 then some (.blobHeader ⟨1, INVALID_PAGE_ID⟩)
    else none
  pins _ := 0
  latch _ := .reading 0
  member := ⟨0⟩

end DataAccessor

end MisakiDB
