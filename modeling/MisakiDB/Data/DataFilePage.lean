import MisakiDB.Lib.Bytes
import MisakiDB.Store.FileStore
import Mathlib.Data.List.Perm.Subperm
/-!
# `DataFilePage`

A page of records: a fixed head of three counters, an array of slots that grows
up, and the records, packed against the end of the page and growing down.

`Holds p slotsNum area` says what an intact page holds: the live records in the
order they lie in the page (`area`), in `slotsNum` slots. `insertRecord_holds`,
`removeRecord_holds` and `getRecordValue_holds` are the three operations on it.
-/

namespace MisakiDB.DataFilePage

def INVALID_OFFSET : Int := -1

/-- `sizeof(Slot)`, packed. -/
def SLOT_SIZE : Nat := 5

def MIN_FIXED_SIZE : Nat := 6

def MAX_RECORD_SIZE : Nat := PAGE_SIZE - MIN_FIXED_SIZE - SLOT_SIZE

/-! ## The fields -/

def m_recordNum (p : RawPage) : Int := int16At p 0
def m_invalidSlotNum (p : RawPage) : Int := int16At p 2
def m_freeSpaceEndOffset (p : RawPage) : Int := int16At p 4

def setRecordNum (p : RawPage) (v : Int) : RawPage := write p 0 (int16 v)
def setInvalidSlotNum (p : RawPage) (v : Int) : RawPage := write p 2 (int16 v)
def setFreeSpaceEndOffset (p : RawPage) (v : Int) : RawPage := write p 4 (int16 v)

def getSlotsNum (p : RawPage) : Int := m_invalidSlotNum p + m_recordNum p

/-- `getSlotArray() + slotArrayIndex`. -/
def slotAt (slotArrayIndex : Nat) : Nat := MIN_FIXED_SIZE + SLOT_SIZE * slotArrayIndex

def getRecordOffset (p : RawPage) (slotArrayIndex : Nat) : Int := int16At p (slotAt slotArrayIndex)
def getRecordLength (p : RawPage) (slotArrayIndex : Nat) : Int := int16At p (slotAt slotArrayIndex + 2)
def isBlob (p : RawPage) (slotArrayIndex : Nat) : Bool := byteAt p (slotAt slotArrayIndex + 4) ≠ 0

def setRecordOffset (p : RawPage) (slotArrayIndex : Nat) (v : Int) : RawPage :=
  write p (slotAt slotArrayIndex) (int16 v)
def setRecordLength (p : RawPage) (slotArrayIndex : Nat) (v : Int) : RawPage :=
  write p (slotAt slotArrayIndex + 2) (int16 v)
def setIsBlob (p : RawPage) (slotArrayIndex : Nat) (b : Bool) : RawPage :=
  write p (slotAt slotArrayIndex + 4) [if b then 1 else 0]

/-! ## The operations -/

def init (p : RawPage) : RawPage :=
  setFreeSpaceEndOffset (setInvalidSlotNum (setRecordNum p 0) 0) PAGE_SIZE

def getRecordKey_helper (p : RawPage) (slotArrayIndex : Nat) : List Byte :=
  read p (getRecordOffset p slotArrayIndex).toNat RECORD_KEY_SIZE

def getRecordValue_helper (p : RawPage) (slotArrayIndex : Nat) : List Byte :=
  read p ((getRecordOffset p slotArrayIndex).toNat + RECORD_KEY_SIZE)
    (getRecordLength p slotArrayIndex - RECORD_KEY_SIZE).toNat

/-- The outer `none` is the assertion. -/
def getRecordValue (p : RawPage) (key : List Byte) (slotArrayIndex : Nat) : Option (Option (List Byte × Bool)) :=
  if (slotArrayIndex : Int) < getSlotsNum p then
    if getRecordOffset p slotArrayIndex = INVALID_OFFSET then some none
    else if getRecordKey_helper p slotArrayIndex ≠ key then some none
    else some (some (getRecordValue_helper p slotArrayIndex, isBlob p slotArrayIndex))
  else none

/-- The slot is valid and its record has the key. -/
def HoldsKey (p : RawPage) (key : List Byte) (slotArrayIndex : Nat) : Prop :=
  getRecordOffset p slotArrayIndex ≠ INVALID_OFFSET ∧ getRecordKey_helper p slotArrayIndex = key

theorem getRecordValue_isSome_iff {p : RawPage} {key : List Byte} {i : Nat} {r : Option (List Byte × Bool)}
    (h : getRecordValue p key i = some r) : r.isSome ↔ HoldsKey p key i := by
  unfold HoldsKey
  unfold getRecordValue at h
  split at h
  · split at h
    · rename_i hoff
      obtain rfl : none = r := Option.some.inj h
      simp [hoff]
    · split at h
      · rename_i hkey
        obtain rfl : none = r := Option.some.inj h
        simp [hkey]
      · rename_i hoff hkey
        obtain rfl : some _ = r := Option.some.inj h
        exact iff_of_true rfl ⟨hoff, not_not.1 hkey⟩
  · simp at h

/-- A copy that leaves the page has no result. -/
def memcpy (p : RawPage) (offset : Int) (bytes : List Byte) : Option RawPage :=
  if 0 ≤ offset ∧ offset + bytes.length ≤ PAGE_SIZE then some (write p offset.toNat bytes) else none

/-- The first slot without a record. -/
def freeSlot (p : RawPage) : Option Nat :=
  (List.range (getSlotsNum p).toNat).find? fun i => getRecordOffset p i = INVALID_OFFSET

/-- No result when the slot count says that a slot is invalid and none is. -/
def targetIndex (p : RawPage) : Option Nat :=
  if m_invalidSlotNum p ≠ 0 then freeSlot p else some (getSlotsNum p).toNat

/-- `--m_invalidSlotNum`, when there are invalid slots. -/
def takeSlot (p : RawPage) : RawPage :=
  if m_invalidSlotNum p ≠ 0 then setInvalidSlotNum p (m_invalidSlotNum p - 1) else p

/-- The slot taken, and the page after. -/
def insertRecord (p : RawPage) (record : List Byte) (isBlob : Bool) : Option (Nat × RawPage) := do
  let i ← targetIndex p
  let p := takeSlot p
  let p := setRecordNum p (m_recordNum p + 1)
  let p := setFreeSpaceEndOffset p (m_freeSpaceEndOffset p - record.length)
  let p := setRecordOffset p i (m_freeSpaceEndOffset p)
  let p := setRecordLength p i record.length
  let p := setIsBlob p i isBlob
  let p ← memcpy p (m_freeSpaceEndOffset p) record
  some (i, p)

/-- One round of the loop of `removeRecord`: a record below the removed one moves up. -/
def moveSlot (movedSize recordLength : Int) (p : RawPage) (i : Nat) : RawPage :=
  let offset := getRecordOffset p i
  if offset ≠ INVALID_OFFSET ∧ m_freeSpaceEndOffset p ≤ offset ∧ offset < m_freeSpaceEndOffset p + movedSize then
    setRecordOffset p i (offset + recordLength)
  else p

/-- The length of the record, or the value of a blob record; and the page after. -/
def removeRecord (p : RawPage) (slotArrayIndex : Nat) : Option ((Int ⊕ List Byte) × RawPage) :=
  if (slotArrayIndex : Int) < getSlotsNum p ∧ getRecordOffset p slotArrayIndex ≠ INVALID_OFFSET then do
    let result :=
      if isBlob p slotArrayIndex then .inr (getRecordValue_helper p slotArrayIndex)
      else .inl (getRecordLength p slotArrayIndex)
    let recordLength := getRecordLength p slotArrayIndex
    let records := m_freeSpaceEndOffset p
    let movedSize := getRecordOffset p slotArrayIndex - m_freeSpaceEndOffset p
    let p := (List.range (getSlotsNum p).toNat).foldl (moveSlot movedSize recordLength) p
    let p ← memcpy p (records + recordLength) (read p records.toNat movedSize.toNat)
    let p := setFreeSpaceEndOffset p (m_freeSpaceEndOffset p + recordLength)
    let p := setRecordOffset p slotArrayIndex INVALID_OFFSET
    let p := setRecordNum p (m_recordNum p - 1)
    let p := setInvalidSlotNum p (m_invalidSlotNum p + 1)
    some (result, p)
  else none

/-! ## What an intact page holds -/

/-- A live record: its slot, its bytes (key and value) and its blob flag. -/
structure Rec where
  slot : Nat
  bytes : List Byte
  isBlob : Bool
  deriving DecidableEq

def size (area : List Rec) : Nat := (area.map fun r => r.bytes.length).sum

/-- The records lie one after the other from the offset on, and their slots say so. -/
def Area (p : RawPage) : Nat → List Rec → Prop
  | _, [] => True
  | o, r :: rs =>
    (getRecordOffset p r.slot = o ∧ getRecordLength p r.slot = r.bytes.length ∧ isBlob p r.slot = r.isBlob ∧
      read p o r.bytes.length = r.bytes) ∧ Area p (o + r.bytes.length) rs

def slots (area : List Rec) : List Nat := area.map Rec.slot

structure Holds (p : RawPage) (slotsNum : Nat) (area : List Rec) : Prop where
  recordNum : m_recordNum p = area.length
  invalidSlotNum : m_invalidSlotNum p + area.length = slotsNum
  freeSpaceEnd : m_freeSpaceEndOffset p + size area = PAGE_SIZE
  room : slotAt slotsNum + size area ≤ PAGE_SIZE
  nodup : (slots area).Nodup
  lt : ∀ r ∈ area, r.slot < slotsNum
  key : ∀ r ∈ area, RECORD_KEY_SIZE ≤ r.bytes.length
  tiles : Area p (PAGE_SIZE - size area) area
  free : ∀ i < slotsNum, i ∉ slots area → getRecordOffset p i = INVALID_OFFSET

/-! ## What a write to one field leaves of the others -/

section Fields
variable {p : RawPage} {o u len : Nat} {v : Int}

theorem int16At_write_int16 (h : o + 2 ≤ u ∨ u + 2 ≤ o) : int16At (write p u (int16 v)) o = int16At p o :=
  int16At_write_disjoint (by rwa [int16_length])

theorem int16At_write_byte {b : Byte} (h : o + 2 ≤ u ∨ u + 1 ≤ o) : int16At (write p u [b]) o = int16At p o :=
  int16At_write_disjoint h

theorem byteAt_write_int16 (h : o < u ∨ u + 2 ≤ o) : byteAt (write p u (int16 v)) o = byteAt p o :=
  byteAt_write_disjoint (by rwa [int16_length])

theorem byteAt_write_byte {b : Byte} (h : o < u ∨ u + 1 ≤ o) : byteAt (write p u [b]) o = byteAt p o :=
  byteAt_write_disjoint h

theorem byteAt_write_byte_self {b : Byte} (h : o + 1 ≤ PAGE_SIZE) : byteAt (write p o [b]) o = b :=
  byteAt_write_self (i := 0) (by simp) h

theorem read_write_int16 (h : o + len ≤ u ∨ u + 2 ≤ o) : read (write p u (int16 v)) o len = read p o len :=
  read_write_disjoint (by rwa [int16_length])

theorem read_write_byte {b : Byte} (h : o + len ≤ u ∨ u + 1 ≤ o) : read (write p u [b]) o len = read p o len :=
  read_write_disjoint h

end Fields

/-- The slot reads the same in both pages. -/
structure SameSlot (p p' : RawPage) (i : Nat) : Prop where
  offset : getRecordOffset p' i = getRecordOffset p i
  length : getRecordLength p' i = getRecordLength p i
  blob : isBlob p' i = isBlob p i

theorem Area.congr {p p' : RawPage} {o : Nat} {rs : List Rec} (h : Area p o rs)
    (hslot : ∀ r ∈ rs, SameSlot p p' r.slot)
    (hread : ∀ u len, o ≤ u → u + len ≤ o + size rs → read p' u len = read p u len) : Area p' o rs := by
  induction rs generalizing o with
  | nil => trivial
  | cons r rs ih =>
    obtain ⟨⟨hoff, hlen, hblob, hbytes⟩, hrest⟩ := h
    have hr := hslot r (by simp)
    have hsize : size (r :: rs) = r.bytes.length + size rs := by simp [size]
    refine ⟨⟨hr.offset.trans hoff, hr.length.trans hlen, hr.blob.trans hblob, ?_⟩, ?_⟩
    · rw [hread _ _ le_rfl (by omega), hbytes]
    · exact ih hrest (fun q hq => hslot q (by simp [hq])) fun u len hu hlen => hread u len (by omega) (by omega)

/-! ## A new page -/

theorem init_holds (p : RawPage) : Holds (init p) 0 [] where
  recordNum := by
    unfold m_recordNum init setRecordNum setInvalidSlotNum setFreeSpaceEndOffset
    simp (disch := first | omega | decide) only [int16At_write_int16, int16At_write_self]
    rfl
  invalidSlotNum := by
    unfold m_invalidSlotNum init setRecordNum setInvalidSlotNum setFreeSpaceEndOffset
    simp (disch := first | omega | decide) only [int16At_write_int16, int16At_write_self]
    rfl
  freeSpaceEnd := by
    unfold m_freeSpaceEndOffset init setFreeSpaceEndOffset
    rw [int16At_write_self (by decide) (by decide) (by decide)]
    rfl
  room := by decide
  nodup := List.nodup_nil
  lt := by simp
  key := by simp
  tiles := trivial
  free := by simp

section Held
variable {p : RawPage} {N : Nat} {area : List Rec}

theorem Area.mem {o : Nat} {rs : List Rec} (h : Area p o rs) {r : Rec} (hr : r ∈ rs) :
    ∃ u, o ≤ u ∧ u + r.bytes.length ≤ o + size rs ∧ getRecordOffset p r.slot = u ∧
      getRecordLength p r.slot = r.bytes.length ∧ isBlob p r.slot = r.isBlob ∧ read p u r.bytes.length = r.bytes := by
  induction rs generalizing o with
  | nil => simp at hr
  | cons q rs ih =>
    obtain ⟨⟨hoff, hlen, hblob, hbytes⟩, hrest⟩ := h
    have hsize : size (q :: rs) = q.bytes.length + size rs := by simp [size]
    rcases List.mem_cons.1 hr with rfl | hr
    · exact ⟨o, le_rfl, by omega, hoff, hlen, hblob, hbytes⟩
    · obtain ⟨u, hu, hend, rest⟩ := ih hrest hr
      exact ⟨u, by omega, by omega, rest⟩

theorem mem_slots {i : Nat} : i ∈ slots area ↔ ∃ r ∈ area, r.slot = i := by
  simp [slots]

theorem Holds.getSlotsNum (h : Holds p N area) : getSlotsNum p = N := by
  have h1 := h.recordNum
  have h2 := h.invalidSlotNum
  unfold DataFilePage.getSlotsNum
  omega

/-- A slot has an offset when a record uses it. -/
theorem Holds.offset_invalid_iff (h : Holds p N area) {i : Nat} (hi : i < N) :
    getRecordOffset p i = INVALID_OFFSET ↔ i ∉ slots area := by
  constructor
  · intro hoff hmem
    obtain ⟨r, hr, rfl⟩ := mem_slots.1 hmem
    obtain ⟨u, -, -, hu, -⟩ := h.tiles.mem hr
    rw [hu, INVALID_OFFSET] at hoff
    omega
  · exact h.free i hi

theorem Holds.length_le (h : Holds p N area) : area.length ≤ N := by
  have hsub : slots area ⊆ List.range N := fun i hi => by
    obtain ⟨r, hr, rfl⟩ := mem_slots.1 hi
    exact List.mem_range.2 (h.lt r hr)
  have := (List.Nodup.subperm h.nodup hsub).length_le
  rwa [slots, List.length_map, List.length_range] at this

/-- While some slot is invalid, the search finds one. -/
theorem Holds.freeSlot (h : Holds p N area) (hlt : area.length < N) :
    ∃ i, freeSlot p = some i ∧ i < N ∧ i ∉ slots area := by
  have hex : ∃ i ∈ List.range N, i ∉ slots area := by
    by_contra hall
    push Not at hall
    have := (List.Nodup.subperm List.nodup_range hall).length_le
    rw [slots, List.length_map, List.length_range] at this
    omega
  obtain ⟨j, hj, hfree⟩ := hex
  unfold DataFilePage.freeSlot
  rw [h.getSlotsNum, Int.toNat_natCast]
  rcases hfind : (List.range N).find? (fun i => decide (getRecordOffset p i = INVALID_OFFSET)) with _ | i
  · rw [List.find?_eq_none] at hfind
    have := hfind j hj
    simp only [decide_eq_true_eq] at this
    exact absurd ((h.offset_invalid_iff (List.mem_range.1 hj)).2 hfree) this
  · have hi := List.mem_range.1 (List.mem_of_find?_eq_some hfind)
    have hoff := List.find?_some hfind
    simp only [decide_eq_true_eq] at hoff
    exact ⟨i, rfl, hi, (h.offset_invalid_iff hi).1 hoff⟩

/-! ## `getRecordValue` -/

/-- The value and the flag of the record in the slot, when its key is the one asked for. -/
theorem getRecordValue_holds (h : Holds p N area) {r : Rec} (hr : r ∈ area) (key : List Byte) :
    getRecordValue p key r.slot =
      some (if r.bytes.take RECORD_KEY_SIZE = key then some (r.bytes.drop RECORD_KEY_SIZE, r.isBlob) else none) := by
  obtain ⟨u, -, -, hoff, hlen, hblob, hbytes⟩ := h.tiles.mem hr
  have hk := h.key r hr
  obtain ⟨n, hn⟩ : ∃ n, r.bytes.length = RECORD_KEY_SIZE + n := Nat.exists_eq_add_of_le hk
  have hsplit : read p u RECORD_KEY_SIZE ++ read p (u + RECORD_KEY_SIZE) n = r.bytes := by
    rw [← read_append, ← hn, hbytes]
  have hkey : getRecordKey_helper p r.slot = r.bytes.take RECORD_KEY_SIZE := by
    rw [getRecordKey_helper, hoff, Int.toNat_natCast, ← hsplit, List.take_left' read_length]
  have hvalue : getRecordValue_helper p r.slot = r.bytes.drop RECORD_KEY_SIZE := by
    rw [getRecordValue_helper, hoff, hlen, Int.toNat_natCast, hn, ← hsplit, List.drop_left' read_length]
    congr 1
    omega
  have hlt := h.lt r hr
  have hne : getRecordOffset p r.slot ≠ INVALID_OFFSET := by
    rw [hoff, INVALID_OFFSET]
    omega
  rw [getRecordValue, if_pos (by rw [h.getSlotsNum]; omega), if_neg hne, hkey, hvalue, hblob]
  split <;> simp_all

/-- A slot without a record has no value. -/
theorem getRecordValue_free (h : Holds p N area) {i : Nat} (hi : i < N) (hfree : i ∉ slots area) (key : List Byte) :
    getRecordValue p key i = some none := by
  rw [getRecordValue, if_pos (by rw [h.getSlotsNum]; omega), if_pos (h.free i hi hfree)]

/-- A record that is found is a live one, with the key. -/
theorem getRecordValue_found (h : Holds p N area) {key : List Byte} {i : Nat} {v : List Byte × Bool}
    (hget : getRecordValue p key i = some (some v)) : ∃ r ∈ area, r.slot = i ∧ r.bytes.take RECORD_KEY_SIZE = key := by
  by_cases hi : i ∈ slots area
  · obtain ⟨r, hr, rfl⟩ := mem_slots.1 hi
    rw [getRecordValue_holds h hr, Option.some.injEq, Option.ite_none_right_eq_some] at hget
    exact ⟨r, hr, rfl, hget.1⟩
  · by_cases hN : i < N
    · rw [getRecordValue_free h hN hi] at hget
      cases hget
    · rw [getRecordValue, h.getSlotsNum, if_neg (by omega)] at hget
      cases hget

/-! ## `insertRecord` -/

/-- The page after the counters and the slot are set, before the record is copied. -/
def setSlot (p : RawPage) (recordNum freeSpaceEnd : Int) (i : Nat) (length : Int) (b : Bool) : RawPage :=
  setIsBlob (setRecordLength (setRecordOffset (setFreeSpaceEndOffset (setRecordNum p recordNum) freeSpaceEnd) i
    freeSpaceEnd) i length) i b

/-- Two pages with the same counters. -/
structure SameHead (p p' : RawPage) : Prop where
  recordNum : m_recordNum p' = m_recordNum p
  invalidSlotNum : m_invalidSlotNum p' = m_invalidSlotNum p
  freeSpaceEnd : m_freeSpaceEndOffset p' = m_freeSpaceEndOffset p

section SetSlot
variable {a e n : Int} {i : Nat} {b : Bool}

theorem slotAt_eq (i : Nat) : slotAt i = 6 + 5 * i := rfl

theorem setSlot_recordNum (h0 : 0 ≤ a) (h1 : a < 32768) : m_recordNum (setSlot p a e i n b) = a := by
  unfold m_recordNum setSlot setIsBlob setRecordLength setRecordOffset setFreeSpaceEndOffset setRecordNum
  simp (disch := omega) only [slotAt_eq, int16At_write_byte, int16At_write_int16]
  exact int16At_write_self (by decide) (by omega) h1

theorem setSlot_invalidSlotNum : m_invalidSlotNum (setSlot p a e i n b) = m_invalidSlotNum p := by
  unfold m_invalidSlotNum setSlot setIsBlob setRecordLength setRecordOffset setFreeSpaceEndOffset setRecordNum
  simp (disch := omega) only [slotAt_eq, int16At_write_byte, int16At_write_int16]

theorem setSlot_freeSpaceEnd (h0 : 0 ≤ e) (h1 : e < 32768) : m_freeSpaceEndOffset (setSlot p a e i n b) = e := by
  unfold m_freeSpaceEndOffset setSlot setIsBlob setRecordLength setRecordOffset setFreeSpaceEndOffset
  simp (disch := omega) only [slotAt_eq, int16At_write_byte, int16At_write_int16]
  exact int16At_write_self (by decide) (by omega) h1

theorem setSlot_offset (hi : slotAt i + 5 ≤ PAGE_SIZE) (h0 : 0 ≤ e) (h1 : e < 32768) :
    getRecordOffset (setSlot p a e i n b) i = e := by
  unfold getRecordOffset setSlot setIsBlob setRecordLength setRecordOffset
  simp (disch := omega) only [int16At_write_byte, int16At_write_int16]
  exact int16At_write_self (by omega) (by omega) h1

theorem setSlot_length (hi : slotAt i + 5 ≤ PAGE_SIZE) (h0 : 0 ≤ n) (h1 : n < 32768) :
    getRecordLength (setSlot p a e i n b) i = n := by
  unfold getRecordLength setSlot setIsBlob setRecordLength
  simp (disch := omega) only [int16At_write_byte]
  exact int16At_write_self (by omega) (by omega) h1

theorem setSlot_isBlob (hi : slotAt i + 5 ≤ PAGE_SIZE) : isBlob (setSlot p a e i n b) i = b := by
  unfold isBlob setSlot setIsBlob
  rw [byteAt_write_byte_self (by omega)]
  cases b <;> rfl

theorem setSlot_other {j : Nat} (h : j ≠ i) : SameSlot p (setSlot p a e i n b) j := by
  constructor
  · unfold getRecordOffset setSlot setIsBlob setRecordLength setRecordOffset setFreeSpaceEndOffset setRecordNum
    simp (disch := omega) only [slotAt_eq, int16At_write_byte, int16At_write_int16]
  · unfold getRecordLength setSlot setIsBlob setRecordLength setRecordOffset setFreeSpaceEndOffset setRecordNum
    simp (disch := omega) only [slotAt_eq, int16At_write_byte, int16At_write_int16]
  · unfold isBlob setSlot setIsBlob setRecordLength setRecordOffset setFreeSpaceEndOffset setRecordNum
    have hbyte : ∀ {v w x y : Int} {c : Byte}, byteAt (write (write (write (write (write p 0 (int16 v)) 4 (int16 w))
        (slotAt i) (int16 x)) (slotAt i + 2) (int16 y)) (slotAt i + 4) [c]) (slotAt j + 4) =
          byteAt p (slotAt j + 4) := by
      intro v w x y c
      simp (disch := omega) only [slotAt_eq, byteAt_write_byte, byteAt_write_int16]
    rw [hbyte]

theorem setSlot_read {u len : Nat} (h : slotAt i + 5 ≤ u) : read (setSlot p a e i n b) u len = read p u len := by
  rw [slotAt_eq] at h
  unfold setSlot setIsBlob setRecordLength setRecordOffset setFreeSpaceEndOffset setRecordNum
  simp (disch := omega) only [slotAt_eq, read_write_byte, read_write_int16]

end SetSlot

/-- What a copy into the records leaves. -/
theorem sameHead_write {o : Nat} {bs : List Byte} (h : 6 ≤ o) : SameHead p (write p o bs) :=
  ⟨int16At_write_disjoint (.inl (by omega)), int16At_write_disjoint (.inl (by omega)),
    int16At_write_disjoint (.inl (by omega))⟩

theorem sameSlot_write {o i : Nat} {bs : List Byte} (h : slotAt i + 5 ≤ o) : SameSlot p (write p o bs) i := by
  refine ⟨int16At_write_disjoint (.inl (by omega)), int16At_write_disjoint (.inl (by omega)), ?_⟩
  unfold isBlob
  rw [byteAt_write_disjoint (.inl (by omega))]

theorem SameSlot.trans {p q r : RawPage} {i : Nat} (h : SameSlot p q i) (h' : SameSlot q r i) : SameSlot p r i :=
  ⟨h'.offset.trans h.offset, h'.length.trans h.length, h'.blob.trans h.blob⟩

theorem takeSlot_same : (∀ i, SameSlot p (takeSlot p) i) ∧ m_recordNum (takeSlot p) = m_recordNum p ∧
    m_freeSpaceEndOffset (takeSlot p) = m_freeSpaceEndOffset p ∧
    ∀ u len, 6 ≤ u → read (takeSlot p) u len = read p u len := by
  unfold takeSlot
  split
  · unfold setInvalidSlotNum
    refine ⟨fun i => ⟨?_, ?_, ?_⟩, ?_, ?_, fun u len hu => read_write_int16 (by omega)⟩
    · exact int16At_write_int16 (by rw [slotAt_eq]; omega)
    · exact int16At_write_int16 (by rw [slotAt_eq]; omega)
    · unfold isBlob
      rw [byteAt_write_int16 (by rw [slotAt_eq]; omega)]
    · exact int16At_write_int16 (by omega)
    · exact int16At_write_int16 (by omega)
  · exact ⟨fun _ => ⟨rfl, rfl, rfl⟩, rfl, rfl, fun _ _ _ => rfl⟩

theorem insertRecord_eq {i e : Nat} {record : List Byte} {b : Bool} (hi : targetIndex p = some i)
    (he : m_freeSpaceEndOffset p = (e + record.length : Nat)) (hle : e + record.length ≤ PAGE_SIZE) :
    insertRecord p record b =
      some (i, write (setSlot (takeSlot p) (m_recordNum p + 1) e i record.length b) e record) := by
  obtain ⟨-, hrec, hend, -⟩ := takeSlot_same (p := p)
  have hPAGE : PAGE_SIZE = 4096 := rfl
  have hsub : m_freeSpaceEndOffset (setRecordNum (takeSlot p) (m_recordNum p + 1)) - record.length = (e : Int) := by
    have : m_freeSpaceEndOffset (setRecordNum (takeSlot p) (m_recordNum p + 1)) = m_freeSpaceEndOffset (takeSlot p) :=
      int16At_write_int16 (by omega)
    rw [this, hend]
    omega
  have hset : m_freeSpaceEndOffset (setFreeSpaceEndOffset (setRecordNum (takeSlot p) (m_recordNum p + 1)) e) = e :=
    int16At_write_self (by decide) (by omega) (by omega)
  have hslot : m_freeSpaceEndOffset (setSlot (takeSlot p) (m_recordNum p + 1) e i record.length b) = e :=
    setSlot_freeSpaceEnd (by omega) (by omega)
  unfold insertRecord
  rw [hi]
  simp only [Option.bind_eq_bind, Option.bind_some, hrec, hsub, hset]
  rw [← setSlot, hslot, memcpy, if_pos (by omega), Int.toNat_natCast, Option.bind_some]

/-- How many slots there are once a record was added. -/
def grow (N : Nat) (area : List Rec) : Nat := if area.length = N then N + 1 else N

/-- A record takes an invalid slot, or the next slot when there is none. -/
theorem Holds.targetIndex (h : Holds p N area) : ∃ i, targetIndex p = some i ∧ i ∉ slots area ∧ i < grow N area ∧
    ∀ j < grow N area, j ≠ i → j < N := by
  have hle := h.length_le
  have hinv := h.invalidSlotNum
  unfold DataFilePage.targetIndex grow
  by_cases hfull : area.length = N
  · rw [if_neg (by omega), h.getSlotsNum, if_pos hfull]
    refine ⟨N, rfl, fun hmem => ?_, by omega, fun j hj hne => by omega⟩
    obtain ⟨r, hr, hrN⟩ := mem_slots.1 hmem
    exact absurd (h.lt r hr) (by omega)
  · obtain ⟨i, hfree, hi, hnew⟩ := h.freeSlot (by omega)
    rw [if_pos (by omega), if_neg hfull]
    exact ⟨i, hfree, hnew, hi, fun j hj _ => hj⟩

/-- A record that fits goes in front of the others. -/
theorem insertRecord_holds (h : Holds p N area) {record : List Byte} {b : Bool} (hkey : RECORD_KEY_SIZE ≤ record.length)
    (hfit : slotAt (grow N area) + size area + record.length ≤ PAGE_SIZE) :
    ∃ i p', insertRecord p record b = some (i, p') ∧ i ∉ slots area ∧ i < grow N area ∧
      Holds p' (grow N area) (⟨i, record, b⟩ :: area) := by
  obtain ⟨i, hi, hnew, hlt, hold⟩ := h.targetIndex
  have hend := h.freeSpaceEnd
  have hrecs := h.recordNum
  have hinv := h.invalidSlotNum
  have hle := h.length_le
  have hPAGE : PAGE_SIZE = 4096 := rfl
  have hroom := h.room
  have hsize : size (⟨i, record, b⟩ :: area) = record.length + size area := by simp [size]
  have hgrow : N ≤ grow N area := by
    unfold grow
    split <;> omega
  rw [slotAt_eq] at hfit hroom
  -- where the record goes: below every record, above every slot
  obtain ⟨e, he⟩ : ∃ e : Nat, e + record.length + size area = PAGE_SIZE :=
    ⟨PAGE_SIZE - record.length - size area, by omega⟩
  have hslots : ∀ j < grow N area, slotAt j + 5 ≤ e := fun j hj => by
    rw [slotAt_eq]
    omega
  have hi5 := hslots i hlt
  rw [slotAt_eq] at hi5
  have hrun : insertRecord p record b = some (i, _) := insertRecord_eq hi (e := e) (by omega) (by omega)
  obtain ⟨hts, htr, hte, htread⟩ := takeSlot_same (p := p)
  generalize hq : setSlot (takeSlot p) (m_recordNum p + 1) e i record.length b = q at hrun
  have hhead : SameHead q (write q e record) := sameHead_write (by omega)
  have hself : SameSlot q (write q e record) i := sameSlot_write (hslots i hlt)
  have hother : ∀ j < grow N area, j ≠ i → SameSlot p (write q e record) j := fun j hj hne => by
    subst hq
    exact ((hts j).trans (setSlot_other hne)).trans (sameSlot_write (hslots j hj))
  refine ⟨i, _, hrun, hnew, hlt, ?_⟩
  subst hq
  constructor
  · rw [hhead.recordNum, setSlot_recordNum (by omega) (by omega), hrecs]
    simp
  · rw [hhead.invalidSlotNum, setSlot_invalidSlotNum, List.length_cons]
    unfold takeSlot grow
    by_cases hfull : area.length = N
    · rw [if_neg (by omega), if_pos hfull]
      omega
    · have hset : m_invalidSlotNum (setInvalidSlotNum p (m_invalidSlotNum p - 1)) = m_invalidSlotNum p - 1 :=
        int16At_write_self (by decide) (by omega) (by omega)
      rw [if_pos (by omega), if_neg hfull, hset]
      omega
  · rw [hhead.freeSpaceEnd, setSlot_freeSpaceEnd (by omega) (by omega), hsize]
    omega
  · rw [hsize, slotAt_eq]
    omega
  · exact List.nodup_cons.2 ⟨hnew, h.nodup⟩
  · rintro r (_ | ⟨_, hr⟩)
    · exact hlt
    · exact lt_of_lt_of_le (h.lt r hr) hgrow
  · rintro r (_ | ⟨_, hr⟩)
    · exact hkey
    · exact h.key r hr
  · rw [hsize, show PAGE_SIZE - (record.length + size area) = e by omega]
    refine ⟨⟨?_, ?_, ?_, read_write_self (by omega)⟩, ?_⟩
    · rw [hself.offset, setSlot_offset (by rw [slotAt_eq]; omega) (by omega) (by omega)]
    · rw [hself.length, setSlot_length (by rw [slotAt_eq]; omega) (by omega) (by omega)]
    · rw [hself.blob, setSlot_isBlob (by rw [slotAt_eq]; omega)]
    · rw [show e + record.length = PAGE_SIZE - size area by omega]
      apply h.tiles.congr
      · intro r hr
        exact hother _ (lt_of_lt_of_le (h.lt r hr) hgrow) fun heq => hnew (mem_slots.2 ⟨r, hr, heq⟩)
      · intro u len hu hlen
        rw [read_write_disjoint (.inr (by omega)), setSlot_read (by rw [slotAt_eq]; omega), htread _ _ (by omega)]
  · intro j hj hfree
    simp only [slots, List.map_cons, List.mem_cons, not_or] at hfree
    rw [(hother j hj hfree.1).offset]
    exact h.free j (hold j hj hfree.1) hfree.2

/-! ## `removeRecord` -/

/-- The loop moves the slot's record. -/
def Moved (p : RawPage) (movedSize : Int) (i : Nat) : Prop :=
  getRecordOffset p i ≠ INVALID_OFFSET ∧ m_freeSpaceEndOffset p ≤ getRecordOffset p i ∧
    getRecordOffset p i < m_freeSpaceEndOffset p + movedSize

instance (p : RawPage) (m : Int) (i : Nat) : Decidable (Moved p m i) := by
  unfold Moved
  infer_instance

/-- What the loop leaves after `k` rounds. -/
structure MovedSlots (p p' : RawPage) (m n : Int) (k : Nat) : Prop where
  head : SameHead p p'
  offset : ∀ i, getRecordOffset p' i = if i < k ∧ Moved p m i then getRecordOffset p i + n else getRecordOffset p i
  length : ∀ i, getRecordLength p' i = getRecordLength p i
  blob : ∀ i, isBlob p' i = isBlob p i
  read : ∀ u len, slotAt k ≤ u → read p' u len = read p u len

theorem movedSlots {m n : Int} (k : Nat) (hk : slotAt k ≤ PAGE_SIZE)
    (hrange : ∀ i < k, Moved p m i → 0 ≤ getRecordOffset p i + n ∧ getRecordOffset p i + n < 32768) :
    MovedSlots p ((List.range k).foldl (moveSlot m n) p) m n k := by
  induction k with
  | zero => exact ⟨⟨rfl, rfl, rfl⟩, fun i => by simp, fun _ => rfl, fun _ => rfl, fun _ _ _ => rfl⟩
  | succ k ih =>
    rw [slotAt_eq] at hk
    have hih := ih (by rw [slotAt_eq]; omega) fun i hi => hrange i (by omega)
    have hslot : SLOT_SIZE = 5 := rfl
    rw [List.range_succ, List.foldl_append, List.foldl_cons, List.foldl_nil]
    generalize (List.range k).foldl (moveSlot m n) p = q at hih
    obtain ⟨hhead, hoff, hlen, hblob, hread⟩ := hih
    -- this slot is as it was, so it moves or not as the source's page says
    have hkq : getRecordOffset q k = getRecordOffset p k := by rw [hoff, if_neg (by omega)]
    unfold moveSlot
    simp only [hkq, hhead.freeSpaceEnd]
    by_cases hmv : Moved p m k
    · obtain ⟨hlo, hhi⟩ := hrange k (by omega) hmv
      have hmv' := hmv
      unfold Moved at hmv'
      rw [if_pos hmv']
      unfold setRecordOffset
      have hPAGE : PAGE_SIZE = 4096 := rfl
      refine ⟨⟨?_, ?_, ?_⟩, fun i => ?_, fun i => ?_, fun i => ?_, fun u len hu => ?_⟩
      · exact (int16At_write_int16 (by rw [slotAt_eq]; omega)).trans hhead.recordNum
      · exact (int16At_write_int16 (by rw [slotAt_eq]; omega)).trans hhead.invalidSlotNum
      · exact (int16At_write_int16 (by rw [slotAt_eq]; omega)).trans hhead.freeSpaceEnd
      · by_cases hik : i = k
        · subst hik
          rw [if_pos ⟨by omega, hmv⟩]
          exact int16At_write_self (by rw [slotAt_eq]; omega) (by omega) hhi
        · have hsame : getRecordOffset (write q (slotAt k) (int16 (getRecordOffset p k + n))) i = getRecordOffset q i :=
            int16At_write_int16 (by rw [slotAt_eq, slotAt_eq]; omega)
          rw [hsame, hoff]
          by_cases hlt : i < k ∧ Moved p m i
          · rw [if_pos hlt, if_pos ⟨by omega, hlt.2⟩]
          · rw [if_neg hlt, if_neg fun h => hlt ⟨by omega, h.2⟩]
      · exact (int16At_write_int16 (by rw [slotAt_eq, slotAt_eq]; omega)).trans (hlen i)
      · rw [← hblob i]
        unfold isBlob
        rw [byteAt_write_int16 (by rw [slotAt_eq, slotAt_eq]; omega)]
      · rw [slotAt_eq] at hu
        exact (read_write_int16 (by rw [slotAt_eq]; omega)).trans (hread u len (by rw [slotAt_eq]; omega))
    · have hmv' := hmv
      unfold Moved at hmv'
      rw [if_neg hmv']
      refine ⟨hhead, fun i => ?_, hlen, hblob, fun u len hu => hread u len (by rw [slotAt_eq] at hu ⊢; omega)⟩
      rw [hoff]
      by_cases hlt : i < k ∧ Moved p m i
      · rw [if_pos hlt, if_pos ⟨by omega, hlt.2⟩]
      · rw [if_neg hlt, if_neg]
        rintro ⟨hi, hm⟩
        by_cases hik : i = k
        · exact hmv (hik ▸ hm)
        · exact hlt ⟨by omega, hm⟩

/-- The page once the record's slot is given up. -/
def dropSlot (p : RawPage) (freeSpaceEnd : Int) (i : Nat) : RawPage :=
  let p := setFreeSpaceEndOffset p freeSpaceEnd
  let p := setRecordOffset p i INVALID_OFFSET
  let p := setRecordNum p (m_recordNum p - 1)
  setInvalidSlotNum p (m_invalidSlotNum p + 1)

section DropSlot
variable {e : Int} {i : Nat}

theorem dropSlot_eq : dropSlot p e i =
    write (write (write (write p 4 (int16 e)) (slotAt i) (int16 INVALID_OFFSET)) 0 (int16 (m_recordNum p - 1))) 2
      (int16 (m_invalidSlotNum p + 1)) := by
  have hrec : m_recordNum (setRecordOffset (setFreeSpaceEndOffset p e) i INVALID_OFFSET) = m_recordNum p := by
    unfold m_recordNum setRecordOffset setFreeSpaceEndOffset
    simp (disch := omega) only [slotAt_eq, int16At_write_int16]
  have hinv : m_invalidSlotNum (setRecordNum (setRecordOffset (setFreeSpaceEndOffset p e) i INVALID_OFFSET)
      (m_recordNum p - 1)) = m_invalidSlotNum p := by
    unfold m_invalidSlotNum setRecordOffset setFreeSpaceEndOffset setRecordNum
    simp (disch := omega) only [slotAt_eq, int16At_write_int16]
  unfold dropSlot
  simp only [hrec, hinv]
  rfl

theorem dropSlot_recordNum (h0 : 0 < m_recordNum p) (h1 : m_recordNum p < 32768) :
    m_recordNum (dropSlot p e i) = m_recordNum p - 1 := by
  rw [dropSlot_eq]
  exact (int16At_write_int16 (by omega)).trans (int16At_write_self (by decide) (by omega) (by omega))

theorem dropSlot_invalidSlotNum (h0 : 0 ≤ m_invalidSlotNum p) (h1 : m_invalidSlotNum p < 32767) :
    m_invalidSlotNum (dropSlot p e i) = m_invalidSlotNum p + 1 := by
  rw [dropSlot_eq]
  exact int16At_write_self (by decide) (by omega) (by omega)

theorem dropSlot_freeSpaceEnd (h0 : 0 ≤ e) (h1 : e < 32768) : m_freeSpaceEndOffset (dropSlot p e i) = e := by
  rw [dropSlot_eq]
  unfold m_freeSpaceEndOffset
  simp (disch := omega) only [slotAt_eq, int16At_write_int16]
  exact int16At_write_self (by decide) (by omega) h1

theorem dropSlot_offset (hi : slotAt i + 5 ≤ PAGE_SIZE) : getRecordOffset (dropSlot p e i) i = INVALID_OFFSET := by
  rw [dropSlot_eq]
  unfold getRecordOffset
  rw [slotAt_eq] at hi ⊢
  simp (disch := omega) only [int16At_write_int16]
  exact int16At_write_self (by omega) (by decide) (by decide)

theorem dropSlot_other {j : Nat} (h : j ≠ i) : SameSlot p (dropSlot p e i) j := by
  rw [dropSlot_eq]
  constructor
  · unfold getRecordOffset
    simp (disch := omega) only [slotAt_eq, int16At_write_int16]
  · unfold getRecordLength
    simp (disch := omega) only [slotAt_eq, int16At_write_int16]
  · unfold isBlob
    rw [slotAt_eq, slotAt_eq, byteAt_write_int16 (by omega), byteAt_write_int16 (by omega),
      byteAt_write_int16 (by omega), byteAt_write_int16 (by omega)]

theorem dropSlot_read {u len : Nat} (h : slotAt i + 5 ≤ u) : read (dropSlot p e i) u len = read p u len := by
  rw [slotAt_eq] at h
  rw [dropSlot_eq]
  simp (disch := omega) only [slotAt_eq, read_write_int16]

end DropSlot

theorem Area.append {o : Nat} {a b : List Rec} : Area p o (a ++ b) ↔ Area p o a ∧ Area p (o + size a) b := by
  induction a generalizing o with
  | nil => simp [Area, size]
  | cons r a ih =>
    have hsize : size (r :: a) = r.bytes.length + size a := by simp [size]
    rw [List.cons_append, Area, Area, ih, hsize, Nat.add_assoc]
    tauto

theorem size_append (a b : List Rec) : size (a ++ b) = size a + size b := by simp [size]

theorem size_cons (r : Rec) (a : List Rec) : size (r :: a) = r.bytes.length + size a := by simp [size]

/-- Records that were all moved up by `n` bytes. -/
theorem Area.moved {p' : RawPage} {n o : Nat} {rs : List Rec} (h : Area p o rs)
    (hoff : ∀ r ∈ rs, getRecordOffset p' r.slot = getRecordOffset p r.slot + n)
    (hlen : ∀ r ∈ rs, getRecordLength p' r.slot = getRecordLength p r.slot)
    (hblob : ∀ r ∈ rs, isBlob p' r.slot = isBlob p r.slot)
    (hread : ∀ u len, o ≤ u → u + len ≤ o + size rs → read p' (u + n) len = read p u len) : Area p' (o + n) rs := by
  induction rs generalizing o with
  | nil => trivial
  | cons r rs ih =>
    obtain ⟨⟨ho, hl, hb, hbytes⟩, hrest⟩ := h
    rw [size_cons] at hread
    refine ⟨⟨?_, ?_, ?_, ?_⟩, ?_⟩
    · rw [hoff r (by simp), ho]
      omega
    · rw [hlen r (by simp), hl]
    · rw [hblob r (by simp), hb]
    · rw [hread o _ le_rfl (by omega), hbytes]
    · rw [Nat.add_right_comm]
      exact ih hrest (fun q hq => hoff q (by simp [hq])) (fun q hq => hlen q (by simp [hq]))
        (fun q hq => hblob q (by simp [hq])) fun u len hu hl' => hread u len (by omega) (by omega)

/-- What `removeRecord` returns for a record. -/
def removed (r : Rec) : Int ⊕ List Byte :=
  if r.isBlob then .inr (r.bytes.drop RECORD_KEY_SIZE) else .inl r.bytes.length

/-- The record's value, as its slot leads to it. -/
theorem Holds.value (h : Holds p N area) {r : Rec} (hr : r ∈ area) :
    getRecordValue_helper p r.slot = r.bytes.drop RECORD_KEY_SIZE := by
  have hget := getRecordValue_holds h hr (r.bytes.take RECORD_KEY_SIZE)
  rw [if_pos rfl] at hget
  unfold getRecordValue at hget
  split at hget
  · split at hget
    · simp at hget
    · split at hget
      · simp at hget
      · simp only [Option.some.injEq, Prod.mk.injEq] at hget
        exact hget.1
  · simp at hget

/-- A live record goes, and the records below it move up. -/
theorem removeRecord_holds {front back : List Rec} {r : Rec} (h : Holds p N (front ++ r :: back)) :
    ∃ p', removeRecord p r.slot = some (removed r, p') ∧ Holds p' N (front ++ back) := by
  have hmem : r ∈ front ++ r :: back := by simp
  have hPAGE : PAGE_SIZE = 4096 := rfl
  have hroom := h.room
  have hend := h.freeSpaceEnd
  have hrecs := h.recordNum
  have hinv := h.invalidSlotNum
  have hlen := h.length_le
  have hN := h.getSlotsNum
  have hlt := h.lt r hmem
  have hkey : ∀ q ∈ front ++ r :: back, 0 < q.bytes.length := fun q hq =>
    lt_of_lt_of_le (by decide) (h.key q hq)
  obtain ⟨hfront, ⟨hoff, hl, hb, -⟩, hback⟩ : Area p _ front ∧ Area p _ (r :: back) := Area.append.1 h.tiles
  rw [size_append, size_cons] at hroom hend hfront hoff hback
  rw [slotAt_eq] at hroom
  rw [List.length_append, List.length_cons] at hrecs hinv hlen
  have hnodup := h.nodup
  rw [slots, List.map_append, List.map_cons] at hnodup
  obtain ⟨hfrontslots, hrest, hdisj⟩ := List.nodup_append.1 hnodup
  have hkeyr := hkey r hmem
  -- `o` is the lowest record
  obtain ⟨o, ho⟩ : ∃ o : Nat, o + (size front + (r.bytes.length + size back)) = PAGE_SIZE :=
    ⟨_, Nat.sub_add_cancel (by omega)⟩
  rw [show PAGE_SIZE - (size front + (r.bytes.length + size back)) = o by omega] at hfront hoff hback
  have he : m_freeSpaceEndOffset p = o := by omega
  -- the slots that the loop moves are those of the records below
  have hfrontMoved : ∀ q ∈ front, q.slot < N ∧ Moved p (size front) q.slot := fun q hq => by
    obtain ⟨u, hu, huend, hqoff, -⟩ := hfront.mem hq
    have hq0 := hkey q (by simp [hq])
    refine ⟨h.lt q (by simp [hq]), ?_, ?_, ?_⟩
    · rw [hqoff, INVALID_OFFSET]
      omega
    · rw [hqoff, he]
      omega
    · rw [hqoff, he]
      omega
  have hbackMoved : ∀ q ∈ r :: back, ¬ Moved p (size front) q.slot := fun q hq hmv => by
    obtain ⟨u, hu, -, hqoff, -⟩ := (Area.append.1 h.tiles).2.mem hq
    have := hmv.2.2
    rw [hqoff, he] at this
    rw [size_append, size_cons] at hu
    omega
  have hrange : ∀ i < N, Moved p (size front) i →
      0 ≤ getRecordOffset p i + r.bytes.length ∧ getRecordOffset p i + r.bytes.length < 32768 := fun i _ hmv => by
    have h1 := hmv.2.1
    have h2 := hmv.2.2
    rw [he] at h1 h2
    omega
  have hloop := movedSlots N (by rw [slotAt_eq]; omega) hrange
  -- the page after the loop, and after the records are moved
  generalize hq : (List.range N).foldl (moveSlot (size front) r.bytes.length) p = q at hloop
  have hrun : removeRecord p r.slot = some (removed r,
      dropSlot (write q (o + r.bytes.length) (read q o (size front))) (o + r.bytes.length) r.slot) := by
    have hne : getRecordOffset p r.slot ≠ INVALID_OFFSET := by
      rw [hoff, INVALID_OFFSET]
      omega
    have hvalue := h.value hmem
    have hq6 : m_freeSpaceEndOffset (write q (o + r.bytes.length) (read q o (size front))) = o := by
      rw [(sameHead_write (by omega)).freeSpaceEnd, hloop.head.freeSpaceEnd, he]
    have hmoved : ((o + size front : Nat) : Int) - o = (size front : Nat) := by omega
    have hcopy : memcpy q ((o : Int) + r.bytes.length) (read q o (size front)) =
        some (write q (o + r.bytes.length) (read q o (size front))) := by
      rw [memcpy, if_pos (by rw [read_length]; omega)]
      rfl
    unfold removeRecord
    rw [if_pos ⟨by omega, hne⟩, hN, hoff, he, hl, hb, hvalue]
    simp only [hmoved, Int.toNat_natCast, hq, hcopy, Option.bind_eq_bind, Option.bind_some, hq6]
    rfl
  generalize hw : write q (o + r.bytes.length) (read q o (size front)) = w at hrun
  have hhead : SameHead q w := hw ▸ sameHead_write (by omega)
  have hslot : ∀ i < N, SameSlot q w i := fun i hi => hw ▸ sameSlot_write (by rw [slotAt_eq]; omega)
  have hdrop : ∀ i < N, i ≠ r.slot → SameSlot w (dropSlot w (o + r.bytes.length) r.slot) i :=
    fun i _ hne => dropSlot_other hne
  refine ⟨_, hrun, ?_⟩
  constructor
  · rw [dropSlot_recordNum (by rw [hhead.recordNum, hloop.head.recordNum]; omega)
      (by rw [hhead.recordNum, hloop.head.recordNum]; omega), hhead.recordNum, hloop.head.recordNum, hrecs,
      List.length_append]
    omega
  · rw [dropSlot_invalidSlotNum (by rw [hhead.invalidSlotNum, hloop.head.invalidSlotNum]; omega)
      (by rw [hhead.invalidSlotNum, hloop.head.invalidSlotNum]; omega), hhead.invalidSlotNum, hloop.head.invalidSlotNum,
      List.length_append]
    omega
  · rw [dropSlot_freeSpaceEnd (by omega) (by omega), size_append]
    omega
  · rw [size_append, slotAt_eq]
    omega
  · rw [slots, List.map_append]
    refine List.nodup_append.2 ⟨hfrontslots, (List.nodup_cons.1 hrest).2,
      fun a ha b hb' => hdisj a ha b (by simp [hb'])⟩
  · intro a ha
    exact h.lt a (by simp only [List.mem_append, List.mem_cons] at ha ⊢; tauto)
  · intro a ha
    exact h.key a (by simp only [List.mem_append, List.mem_cons] at ha ⊢; tauto)
  · rw [size_append, show PAGE_SIZE - (size front + size back) = o + r.bytes.length by omega]
    refine Area.append.2 ⟨?_, ?_⟩
    · -- the records below, moved
      have hnotr : ∀ a ∈ front, a.slot ≠ r.slot := fun a ha => hdisj a.slot (List.mem_map_of_mem ha) r.slot (by simp)
      refine hfront.moved (fun a ha => ?_) (fun a ha => ?_) (fun a ha => ?_) fun u len hu hlen' => ?_
      · obtain ⟨halt, hamv⟩ := hfrontMoved a ha
        rw [(hdrop _ halt (hnotr a ha)).offset, (hslot _ halt).offset, hloop.offset, if_pos ⟨halt, hamv⟩]
      · obtain ⟨halt, -⟩ := hfrontMoved a ha
        rw [(hdrop _ halt (hnotr a ha)).length, (hslot _ halt).length, hloop.length]
      · obtain ⟨halt, -⟩ := hfrontMoved a ha
        rw [(hdrop _ halt (hnotr a ha)).blob, (hslot _ halt).blob, hloop.blob]
      · obtain ⟨k, rfl⟩ := Nat.exists_eq_add_of_le hu
        rw [dropSlot_read (by rw [slotAt_eq]; omega), ← hw,
          show o + k + r.bytes.length = o + r.bytes.length + k by omega, read_write_read (by omega) (by omega),
          hloop.read _ _ (by rw [slotAt_eq]; omega)]
    · -- the records above stay
      have hnotr : ∀ a ∈ back, a.slot ≠ r.slot := fun a ha heq =>
        (List.nodup_cons.1 hrest).1 (heq ▸ List.mem_map_of_mem ha)
      rw [show o + r.bytes.length + size front = o + size front + r.bytes.length by omega]
      refine hback.congr (fun a ha => ?_) fun u len hu hlen' => ?_
      · have halt := h.lt a (by simp [ha])
        have hq' : SameSlot p q a.slot :=
          ⟨by rw [hloop.offset, if_neg fun hm => hbackMoved a (by simp [ha]) hm.2], hloop.length _, hloop.blob _⟩
        exact (hq'.trans (hslot _ halt)).trans (hdrop _ halt (hnotr a ha))
      · rw [dropSlot_read (by rw [slotAt_eq]; omega), ← hw, read_write_disjoint (.inr (by rw [read_length]; omega)),
          hloop.read _ _ (by rw [slotAt_eq]; omega)]
  · intro i hi hfree
    by_cases hir : i = r.slot
    · rw [hir]
      exact dropSlot_offset (by rw [slotAt_eq]; omega)
    · have hnot : i ∉ slots (front ++ r :: back) := by
        simp only [slots, List.map_append, List.map_cons, List.mem_append, List.mem_cons] at hfree ⊢
        tauto
      have hinvalid := h.free i hi hnot
      rw [(hdrop i hi hir).offset, (hslot i hi).offset, hloop.offset, if_neg fun hm => hm.2.1 hinvalid, hinvalid]

end Held

end MisakiDB.DataFilePage
