import MisakiDB.Data.DataFilePage
/-!
# `FreeSpaceMapFilePage`

The map keeps an entry for each data page: its free bytes and its invalid slots,
both `uint16_t`.
-/

namespace MisakiDB

structure FreeSpaceEntry where
  invalidSlotNum : Nat
  freeSpace : Nat
  deriving DecidableEq, Repr

/-- `a - b` in 16 bits. -/
def sub16 (a b : Nat) : Nat := (a + 2 ^ 16 - b % 2 ^ 16) % 2 ^ 16

theorem sub16_eq {a b : Nat} (h : b ≤ a) (ha : a < 2 ^ 16) : sub16 a b = a - b := by
  unfold sub16
  omega

namespace FreeSpaceEntry

/-- Entry of a page that holds nothing. -/
def empty : FreeSpaceEntry := ⟨0, PAGE_SIZE - DataFilePage.MIN_FIXED_SIZE⟩

def addFreeSpace (e : FreeSpaceEntry) (recordSize : Nat) : FreeSpaceEntry :=
  ⟨(e.invalidSlotNum + 1) % 2 ^ 16, (e.freeSpace + recordSize) % 2 ^ 16⟩

def subFreeSpace (e : FreeSpaceEntry) (usedInvalidSlot : Bool) (recordSize : Nat) : FreeSpaceEntry :=
  if usedInvalidSlot then ⟨sub16 e.invalidSlotNum 1, sub16 e.freeSpace recordSize⟩
  else ⟨e.invalidSlotNum, sub16 e.freeSpace (recordSize + DataFilePage.SLOT_SIZE)⟩

/-- The test of `allocateDataPage`. -/
def fits (e : FreeSpaceEntry) (recordSize : Nat) : Bool :=
  0 < e.invalidSlotNum ∧ recordSize ≤ e.freeSpace ∨ recordSize + DataFilePage.SLOT_SIZE ≤ e.freeSpace

/-- The reservation that follows the test. -/
def reserve (e : FreeSpaceEntry) (recordSize : Nat) : FreeSpaceEntry :=
  e.subFreeSpace (0 < e.invalidSlotNum) recordSize

/-- What a reservation takes besides the record. -/
def slotCost (e : FreeSpaceEntry) : Nat := if 0 < e.invalidSlotNum then 0 else DataFilePage.SLOT_SIZE

theorem fits_iff {e : FreeSpaceEntry} {n : Nat} : e.fits n = true ↔
    0 < e.invalidSlotNum ∧ n ≤ e.freeSpace ∨ n + DataFilePage.SLOT_SIZE ≤ e.freeSpace := by
  simp [fits]

/-- Nothing wraps: what is taken is there. -/
theorem reserve_eq {e : FreeSpaceEntry} {n : Nat} (h : e.fits n = true) (hi : e.invalidSlotNum < 2 ^ 16)
    (hf : e.freeSpace < 2 ^ 16) :
    n + e.slotCost ≤ e.freeSpace ∧ e.reserve n = ⟨e.invalidSlotNum - 1, e.freeSpace - (n + e.slotCost)⟩ := by
  rw [fits_iff] at h
  unfold reserve subFreeSpace slotCost
  by_cases hpos : 0 < e.invalidSlotNum
  · have hn : n ≤ e.freeSpace := by omega
    rw [if_pos hpos, if_pos (by simpa using hpos), sub16_eq hpos hi, sub16_eq hn hf]
    exact ⟨hn, rfl⟩
  · have hn : n + DataFilePage.SLOT_SIZE ≤ e.freeSpace := by omega
    have h0 : e.invalidSlotNum = 0 := by omega
    rw [if_neg hpos, if_neg (by simpa using hpos), sub16_eq hn hf, h0]
    exact ⟨hn, rfl⟩

theorem addFreeSpace_eq {e : FreeSpaceEntry} {n : Nat} (hi : e.invalidSlotNum + 1 < 2 ^ 16)
    (hf : e.freeSpace + n < 2 ^ 16) :
    e.addFreeSpace n = ⟨e.invalidSlotNum + 1, e.freeSpace + n⟩ := by
  rw [addFreeSpace, Nat.mod_eq_of_lt hi, Nat.mod_eq_of_lt hf]

end FreeSpaceEntry

/-- The entry says of the page what the page says of itself. -/
structure Agrees (p : RawPage) (e : FreeSpaceEntry) : Prop where
  freeSpace : (e.freeSpace : Int) = DataFilePage.m_freeSpaceEndOffset p - DataFilePage.MIN_FIXED_SIZE -
    DataFilePage.SLOT_SIZE * DataFilePage.getSlotsNum p
  invalidSlotNum : (e.invalidSlotNum : Int) = DataFilePage.m_invalidSlotNum p

/-- The same, of what the page holds. -/
theorem DataFilePage.Holds.agrees_iff {p : RawPage} {N : Nat} {area : List DataFilePage.Rec} {e : FreeSpaceEntry}
    (h : DataFilePage.Holds p N area) : Agrees p e ↔
      e.freeSpace + DataFilePage.slotAt N + DataFilePage.size area = PAGE_SIZE ∧
      e.invalidSlotNum + area.length = N := by
  have hend := h.freeSpaceEnd
  have hinv := h.invalidSlotNum
  have hslot : DataFilePage.SLOT_SIZE = 5 := rfl
  have hmin : DataFilePage.MIN_FIXED_SIZE = 6 := rfl
  constructor
  · rintro ⟨hf, hi⟩
    rw [h.getSlotsNum, hslot, hmin] at hf
    rw [DataFilePage.slotAt_eq]
    omega
  · rintro ⟨hf, hi⟩
    rw [DataFilePage.slotAt_eq] at hf
    refine ⟨?_, by omega⟩
    rw [h.getSlotsNum, hslot, hmin]
    omega

namespace FreeSpaceMapFilePage

/-- `PAGE_SIZE / sizeof(FreeSpaceEntry)`. -/
def MAX_SIZE : Nat := PAGE_SIZE / 4

end FreeSpaceMapFilePage

/-- A page of the map. The assertions on the index are its type. -/
abbrev FreeSpaceMapFilePage := Fin FreeSpaceMapFilePage.MAX_SIZE → FreeSpaceEntry

namespace FreeSpaceMapFilePage

def init : FreeSpaceMapFilePage := fun _ => .empty

def addFreeSpace (p : FreeSpaceMapFilePage) (index : Fin MAX_SIZE) (recordSize : Nat) : FreeSpaceMapFilePage :=
  Function.update p index ((p index).addFreeSpace recordSize)

def subFreeSpace (p : FreeSpaceMapFilePage) (index : Fin MAX_SIZE) (usedInvalidSlot : Bool) (recordSize : Nat) :
    FreeSpaceMapFilePage :=
  Function.update p index ((p index).subFreeSpace usedInvalidSlot recordSize)

end FreeSpaceMapFilePage

end MisakiDB
