import MisakiDB.Lib.Bytes
import MisakiDB.Store.FileStore
/-!
# Pages of the blob file

A page of a blob and a free page lie over the same bytes: the head flag is the
first byte of the magic number, and both links are the second word. `word` is the
first four bytes. What follows `sizeof(BlobFilePage)` bytes is `block`: the key and
the data of a head page, the data of any other.
-/

namespace MisakiDB

/-- `sizeof(BlobFilePage)`. -/
def BLOB_FIXED_SIZE : Nat := 24

structure BlobPage where
  word : Nat
  next : Option PageIDType
  blobID : Nat
  dataSize : Nat
  block : Fin (PAGE_SIZE - BLOB_FIXED_SIZE) → Byte

namespace BlobPage

/-- A zeroed page: its link is page 0. -/
instance : Inhabited BlobPage := ⟨⟨0, some 0, 0, 0, fun _ => 0⟩⟩

def INVALID_BLOB_ID : Nat := 2 ^ 64 - 1

/-! ## `BlobFilePage` -/

def isBlobListHead (p : BlobPage) : Bool := p.word % 256 ≠ 0

/-- The flag is one byte of the word. -/
def setIsBlobListHead (p : BlobPage) (b : Bool) : BlobPage :=
  { p with word := p.word - p.word % 256 + if b then 1 else 0 }

def init (p : BlobPage) : BlobPage :=
  { p.setIsBlobListHead false with next := INVALID_PAGE_ID, dataSize := 0, blobID := INVALID_BLOB_ID }

/-! ## `BlobHeadPage` and `BlobNonHeadPage` -/

namespace Head

def MAX_DATA_SIZE : Nat := PAGE_SIZE - BLOB_FIXED_SIZE - RECORD_KEY_SIZE

def setKey (p : BlobPage) (key : List Byte) : BlobPage :=
  { p with block := write p.block 0 (key ++ List.replicate (RECORD_KEY_SIZE - key.length) 0) }

def getKey (p : BlobPage) : List Byte := read p.block 0 RECORD_KEY_SIZE

def writeData (p : BlobPage) (data : List Byte) : BlobPage :=
  { p with dataSize := data.length, block := write p.block RECORD_KEY_SIZE data }

def readData (p : BlobPage) : List Byte := read p.block RECORD_KEY_SIZE p.dataSize

end Head

namespace NonHead

def MAX_DATA_SIZE : Nat := PAGE_SIZE - BLOB_FIXED_SIZE

def writeData (p : BlobPage) (data : List Byte) : BlobPage :=
  { p with dataSize := data.length, block := write p.block 0 data }

def readData (p : BlobPage) : List Byte := read p.block 0 p.dataSize

end NonHead

/-! ## `BlobFileFreePage` -/

def MAGIC_NUM : Nat := 17837755

def isFreePage (p : BlobPage) : Bool := p.word = MAGIC_NUM

def initFree (p : BlobPage) : BlobPage := { p with word := MAGIC_NUM, next := INVALID_PAGE_ID }

/-! ## The flag and the magic number -/

/-- No head flag can be read off the magic number, nor the magic number off a flag. -/
theorem not_free_of_byte {p : BlobPage} (h : p.word % 256 ≤ 1) : p.isFreePage = false := by
  have : p.word ≠ MAGIC_NUM := fun heq => by
    rw [heq] at h
    exact absurd h (by decide)
  simpa [isFreePage] using this

@[simp] theorem setIsBlobListHead_byte (p : BlobPage) (b : Bool) :
    (p.setIsBlobListHead b).word % 256 = if b then 1 else 0 := by
  unfold setIsBlobListHead
  cases b
  · simp only [Bool.false_eq_true, if_false]
    omega
  · simp only [if_true]
    omega

theorem isBlobListHead_set (p : BlobPage) (b : Bool) : (p.setIsBlobListHead b).isBlobListHead = b := by
  unfold isBlobListHead
  rw [setIsBlobListHead_byte]
  cases b <;> rfl

theorem isFreePage_set (p : BlobPage) (b : Bool) : (p.setIsBlobListHead b).isFreePage = false :=
  not_free_of_byte (by rw [setIsBlobListHead_byte]; cases b <;> decide)

theorem getKey_setKey (p : BlobPage) {key : List Byte} (h : key.length = RECORD_KEY_SIZE) :
    Head.getKey (Head.setKey p key) = key := by
  unfold Head.getKey Head.setKey
  rw [h, Nat.sub_self, List.replicate_zero, List.append_nil, ← h]
  exact read_write_self (by rw [h]; decide)

/-- The data of a head page lies behind the key. -/
theorem getKey_writeData (p : BlobPage) (data : List Byte) : Head.getKey (Head.writeData p data) = Head.getKey p :=
  read_write_disjoint (.inl (by decide))

theorem readData_head (p : BlobPage) {data : List Byte} (h : data.length ≤ Head.MAX_DATA_SIZE) :
    Head.readData (Head.writeData p data) = data := by
  unfold Head.MAX_DATA_SIZE at h
  exact read_write_self (by unfold RECORD_KEY_SIZE at h ⊢; unfold PAGE_SIZE BLOB_FIXED_SIZE at h ⊢; omega)

theorem readData_nonHead (p : BlobPage) {data : List Byte} (h : data.length ≤ NonHead.MAX_DATA_SIZE) :
    NonHead.readData (NonHead.writeData p data) = data :=
  read_write_self (by rw [Nat.zero_add]; exact h)

end BlobPage

end MisakiDB
