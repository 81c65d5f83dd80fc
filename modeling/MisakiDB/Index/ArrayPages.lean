import MisakiDB.Index.TreePage
import MisakiDB.Lib.BoundedArray
/-!
# The arrays of the tree pages

The leaf and internal pages as they lie in 4096 bytes: `m_size` and `m_array` behind the
header, with the loops of their classes. An access outside the page ends the program, and so
do the assertions on an index. `toLeafPage` and `toInternalPage` read the page as a list,
and every function here does to the list what its namesake does.
-/

namespace MisakiDB

open BoundedArray

/-! ## The layout -/

def LEAF_PAGE_HEADER_SIZE : Nat := 24

def INTERNAL_PAGE_HEADER_SIZE : Nat := 20

/-- A key of 24 bytes and a record id. The bit-fields of a record id lie in three words, so
its union takes 16 bytes. -/
def LEAF_ENTRY_SIZE : Nat := 40

def INTERNAL_ENTRY_SIZE : Nat := 28

def LEAF_PAGE_SIZE : Nat := (PAGE_SIZE - LEAF_PAGE_HEADER_SIZE) / LEAF_ENTRY_SIZE

/-- The default of the tree's constructor. The macro expands in the tree's class, where
`MappingType` is the entry of a leaf. -/
def INTERNAL_PAGE_SIZE : Nat := (PAGE_SIZE - INTERNAL_PAGE_HEADER_SIZE) / LEAF_ENTRY_SIZE

/-- The entries that fit in an internal page. -/
def INTERNAL_CAPACITY : Nat := (PAGE_SIZE - INTERNAL_PAGE_HEADER_SIZE) / INTERNAL_ENTRY_SIZE

theorem lt_INTERNAL_CAPACITY {i : Nat} :
    i < INTERNAL_CAPACITY ↔ INTERNAL_PAGE_HEADER_SIZE + INTERNAL_ENTRY_SIZE * i + INTERNAL_ENTRY_SIZE ≤ PAGE_SIZE := by
  unfold INTERNAL_CAPACITY INTERNAL_PAGE_HEADER_SIZE INTERNAL_ENTRY_SIZE PAGE_SIZE
  omega

/-! ## Leaf pages -/

structure BPlusTreeLeafPage (K V : Type) where
  pageID : PageIDType
  parentPageID : Option PageIDType
  maxSize : Nat
  nextPageID : Option PageIDType
  items : BoundedArray (K × V)

namespace BPlusTreeLeafPage
variable {K V : Type}

def init [Inhabited K] [Inhabited V] (pageID : PageIDType) (parentID : Option PageIDType) (maxSize : Nat) :
    BPlusTreeLeafPage K V :=
  { pageID, parentPageID := parentID, maxSize, nextPageID := INVALID_PAGE_ID, items := ⟨0, fun _ => default⟩ }

def getSize (p : BPlusTreeLeafPage K V) : Nat := p.items.size

def getMinSize (p : BPlusTreeLeafPage K V) : Nat := p.maxSize / 2

def setSize (p : BPlusTreeLeafPage K V) (size : Nat) : BPlusTreeLeafPage K V := { p with items := p.items.setSize size }

def keyAt (p : BPlusTreeLeafPage K V) (index : Nat) : Option K := (p.items.item LEAF_PAGE_SIZE index).map (·.1)

section Order
variable [LinearOrder K]

def insert (p : BPlusTreeLeafPage K V) (key : K) (value : V) : Option (BPlusTreeLeafPage K V) := do
  let (items, i) ← shiftWhile LEAF_PAGE_SIZE (fun e => key < e.1) p.getSize p.items
  let items ← items.write LEAF_PAGE_SIZE i (key, value)
  some { p with items := items.setSize (p.getSize + 1) }

def lookup (p : BPlusTreeLeafPage K V) (key : K) : Option (Option V) := do
  let i ← scan LEAF_PAGE_SIZE (fun e => e.1 = key) p.items p.getSize 0
  if i = p.getSize then
    some none
  else
    let e ← p.items.read LEAF_PAGE_SIZE i
    some (some e.2)

/-- The last entry to move down is the one behind the last. -/
def removeAndDeleteRecord (p : BPlusTreeLeafPage K V) (key : K) : Option (Option V × BPlusTreeLeafPage K V) := do
  let i ← scan LEAF_PAGE_SIZE (fun e => e.1 = key) p.items p.getSize 0
  if i = p.getSize then
    some (none, p)
  else
    let e ← p.items.read LEAF_PAGE_SIZE i
    let items ← shiftDown LEAF_PAGE_SIZE (p.getSize - i) i p.items
    some (some e.2, { p with items := items.setSize (p.getSize - 1) })

end Order

/-- `n` entries of `m_array + i`. -/
def itemsFrom (p : BPlusTreeLeafPage K V) (i n : Nat) : Option (List (K × V)) := p.items.readN LEAF_PAGE_SIZE n i

def copyNFrom (p : BPlusTreeLeafPage K V) (items : List (K × V)) : Option (BPlusTreeLeafPage K V) := do
  let a ← writeN LEAF_PAGE_SIZE items p.getSize p.items
  some { p with items := a.setSize (p.getSize + items.length) }

def copyLastFrom (p : BPlusTreeLeafPage K V) (item : K × V) : Option (BPlusTreeLeafPage K V) := do
  let a ← p.items.write LEAF_PAGE_SIZE p.getSize item
  some { p with items := a.setSize (p.getSize + 1) }

def copyFirstFrom (p : BPlusTreeLeafPage K V) (item : K × V) : Option (BPlusTreeLeafPage K V) := do
  let a ← shiftUp LEAF_PAGE_SIZE p.getSize p.items
  let a ← a.write LEAF_PAGE_SIZE 0 item
  some { p with items := a.setSize (p.getSize + 1) }

def first (p : BPlusTreeLeafPage K V) : Option (K × V) := p.items.read LEAF_PAGE_SIZE 0

/-- `m_array[size - 1]`. -/
def last (p : BPlusTreeLeafPage K V) : Option (K × V) :=
  if p.getSize = 0 then none else p.items.read LEAF_PAGE_SIZE (p.getSize - 1)

def dropFirst (p : BPlusTreeLeafPage K V) : Option (BPlusTreeLeafPage K V) := do
  let a ← shiftDown LEAF_PAGE_SIZE (p.getSize - 1) 0 p.items
  some { p with items := a.setSize (p.getSize - 1) }

/-! ### The list of a leaf page -/

def toLeafPage (p : BPlusTreeLeafPage K V) : LeafPage K V :=
  { pageID := p.pageID, parentPageID := p.parentPageID, maxSize := p.maxSize, nextPageID := p.nextPageID,
    array := p.items.entries }

section
variable {p : BPlusTreeLeafPage K V} {i n : Nat}

@[simp] theorem toLeafPage_getSize : p.toLeafPage.array.length = p.getSize := entries_length _

theorem setSize_toLeafPage (h : n ≤ p.getSize) : (p.setSize n).toLeafPage = p.toLeafPage.setSize n := by
  simp [setSize, toLeafPage, LeafPage.setSize, entries_setSize h]

theorem keyAt_toLeafPage (h : p.getSize ≤ LEAF_PAGE_SIZE) : p.keyAt i = p.toLeafPage.keyAt i := by
  rw [keyAt, item_entries h]
  rfl

theorem itemsFrom_toLeafPage (h : p.getSize ≤ LEAF_PAGE_SIZE) (hn : i + n ≤ p.getSize) :
    p.itemsFrom i n = some ((p.toLeafPage.array.drop i).take n) := readN_eq h hn

theorem copyNFrom_toLeafPage {items : List (K × V)} (h : p.getSize + items.length ≤ LEAF_PAGE_SIZE) :
    (p.copyNFrom items).map toLeafPage = some (p.toLeafPage.copyNFrom items) := by
  obtain ⟨a, hw, -, ha⟩ := appendN_entries h
  simp [copyNFrom, getSize, hw, toLeafPage, ha, LeafPage.copyNFrom]

theorem copyLastFrom_toLeafPage (h : p.getSize < LEAF_PAGE_SIZE) (item : K × V) :
    (p.copyLastFrom item).map toLeafPage = some (p.toLeafPage.copyLastFrom item) := by
  have hw := write_eq (a := p.items) h item
  have ha := append_entries (a := p.items) item
  simp only [copyLastFrom, hw]
  simp [toLeafPage, LeafPage.copyLastFrom, ← ha, BoundedArray.setSize, getSize]

theorem copyFirstFrom_toLeafPage (h : p.getSize < LEAF_PAGE_SIZE) (item : K × V) :
    (p.copyFirstFrom item).map toLeafPage = some (p.toLeafPage.copyFirstFrom item) := by
  obtain ⟨a, a', hs, hw, -, ha⟩ := prepend_entries (a := p.items) h item
  rw [copyFirstFrom, hs]
  simp only [Option.bind_eq_bind, Option.bind_some, hw]
  exact congrArg some (congrArg (LeafPage.mk _ _ _ _) (ha p.getSize le_rfl))

theorem first_toLeafPage (h : p.getSize ≤ LEAF_PAGE_SIZE) {e : K × V} (he : p.toLeafPage.array.head? = some e) :
    p.first = some e := by
  rw [List.head?_eq_getElem?] at he
  obtain ⟨hlt, -⟩ := List.getElem?_eq_some_iff.1 he
  rw [toLeafPage_getSize] at hlt
  rw [first, read_eq (hlt.trans_le h), ← he]
  exact (entries_of_lt hlt).symm

theorem last_toLeafPage (h : p.getSize ≤ LEAF_PAGE_SIZE) {e : K × V} (he : p.toLeafPage.array.getLast? = some e) :
    p.last = some e := by
  rw [List.getLast?_eq_getElem?, toLeafPage_getSize] at he
  obtain ⟨hlt, -⟩ := List.getElem?_eq_some_iff.1 he
  rw [toLeafPage_getSize] at hlt
  rw [last, if_neg (by omega), read_eq (by omega), ← he]
  exact (entries_of_lt hlt).symm

theorem dropFirst_toLeafPage (h : p.getSize ≤ LEAF_PAGE_SIZE) (h0 : 0 < p.getSize) :
    p.dropFirst.map toLeafPage = some { p.toLeafPage with array := p.toLeafPage.array.tail } := by
  obtain ⟨a, hs, -, ha⟩ := erase_entries (i := 0) (n := p.getSize - 1) h0 (show p.getSize ≤ _ by omega)
    (show 0 + (p.getSize - 1) < LEAF_PAGE_SIZE by omega)
  rw [List.eraseIdx_zero] at ha
  rw [dropFirst, hs]
  exact congrArg some (congrArg (LeafPage.mk _ _ _ _) ha)

end

section
variable [LinearOrder K] {p : BPlusTreeLeafPage K V} {key : K}

theorem insert_toLeafPage (h : p.getSize < LEAF_PAGE_SIZE) (value : V) :
    (p.insert key value).map toLeafPage = some (p.toLeafPage.insert key value) := by
  obtain ⟨a, a', hs, hw, -, ha⟩ := insert_entries (p := fun e => key < e.1) h (key, value)
  simp [insert, getSize, hs, hw, toLeafPage, ha, LeafPage.insert]

theorem insert_sizes {q : BPlusTreeLeafPage K V} {value : V} (h : p.insert key value = some q) :
    q.maxSize = p.maxSize ∧ q.getSize = p.getSize + 1 := by
  obtain ⟨⟨a, i⟩, -, h⟩ := Option.bind_eq_some_iff.1 h
  obtain ⟨a', -, h⟩ := Option.bind_eq_some_iff.1 h
  obtain rfl := Option.some.inj h
  exact ⟨rfl, rfl⟩

theorem lookup_toLeafPage (h : p.getSize ≤ LEAF_PAGE_SIZE) : p.lookup key = some (p.toLeafPage.lookup key) := by
  have hlist : p.toLeafPage.lookup key = (p.items.entries.find? fun e => e.1 = key).map (·.2) := rfl
  rw [hlist, lookup]
  rcases scan_entries (fun e => e.1 = key) h with ⟨hs, -, hf⟩ | ⟨i, hi, hs, -, hf⟩
  · simp [getSize, hs, hf]
  · have hne : i ≠ p.items.size := hi.ne
    simp [getSize, hs, hf, hne, read_eq (a := p.items) (hi.trans_le h)]

theorem removeAndDeleteRecord_sizes {r : Option V × BPlusTreeLeafPage K V} (h : p.removeAndDeleteRecord key = some r) :
    r.2.maxSize = p.maxSize ∧ r.2.getSize ≤ p.getSize := by
  obtain ⟨i, -, h⟩ := Option.bind_eq_some_iff.1 h
  split at h
  · obtain rfl := Option.some.inj h
    exact ⟨rfl, le_rfl⟩
  · obtain ⟨e, -, h⟩ := Option.bind_eq_some_iff.1 h
    obtain ⟨a, -, h⟩ := Option.bind_eq_some_iff.1 h
    obtain rfl := Option.some.inj h
    exact ⟨rfl, Nat.sub_le _ _⟩

theorem removeAndDeleteRecord_toLeafPage (h : p.getSize < LEAF_PAGE_SIZE) :
    (p.removeAndDeleteRecord key).map (fun r => (r.1, r.2.toLeafPage)) =
    some (p.toLeafPage.removeAndDeleteRecord key) := by
  have hfind : p.toLeafPage.array.find? (fun e => e.1 = key) = p.items.entries.find? fun e => e.1 = key := rfl
  rw [LeafPage.removeAndDeleteRecord, hfind, removeAndDeleteRecord]
  rcases scan_entries (fun e => e.1 = key) h.le with ⟨hs, -, hf⟩ | ⟨i, hi, hs, hidx, hf⟩
  · simp [getSize, hs, hf]
  · have hne : i ≠ p.items.size := hi.ne
    have hi' : i < p.getSize := hi
    obtain ⟨a, hd, -, ha⟩ := erase_entries (n := p.getSize - i) hi (show p.getSize ≤ _ by omega)
      (show i + (p.getSize - i) < LEAF_PAGE_SIZE by omega)
    have herase : p.items.entries.eraseP (fun e => e.1 = key) = p.items.entries.eraseIdx i := by
      rw [List.eraseP_eq_eraseIdx, hidx]
    have hd : shiftDown LEAF_PAGE_SIZE (p.items.size - i) i p.items = some a := hd
    simp [getSize, hs, hf, hne, read_eq (a := p.items) (hi.trans h), hd, toLeafPage, ha, herase]

end

end BPlusTreeLeafPage

/-! ## Internal pages -/

structure BPlusTreeInternalPage (K : Type) where
  pageID : PageIDType
  parentPageID : Option PageIDType
  maxSize : Nat
  items : BoundedArray (K × PageIDType)

namespace BPlusTreeInternalPage
variable {K : Type}

def init [Inhabited K] (pageID : PageIDType) (parentID : Option PageIDType) (maxSize : Nat) : BPlusTreeInternalPage K :=
  { pageID, parentPageID := parentID, maxSize := max maxSize 4, items := ⟨0, fun _ => default⟩ }

def getSize (p : BPlusTreeInternalPage K) : Nat := p.items.size

def getMinSize (p : BPlusTreeInternalPage K) : Nat := p.maxSize / 2

def setSize (p : BPlusTreeInternalPage K) (size : Nat) : BPlusTreeInternalPage K :=
  { p with items := p.items.setSize size }

def keyAt (p : BPlusTreeInternalPage K) (index : Nat) : Option K := (p.items.item INTERNAL_CAPACITY index).map (·.1)

def valueAt (p : BPlusTreeInternalPage K) (index : Nat) : Option PageIDType :=
  (p.items.item INTERNAL_CAPACITY index).map (·.2)

def setKeyAt (p : BPlusTreeInternalPage K) (index : Nat) (key : K) : Option (BPlusTreeInternalPage K) := do
  let e ← p.items.item INTERNAL_CAPACITY index
  let a ← p.items.write INTERNAL_CAPACITY index (key, e.2)
  some { p with items := a }

def valueIndex (p : BPlusTreeInternalPage K) (value : PageIDType) : Option Nat := do
  let i ← scan INTERNAL_CAPACITY (fun e => e.2 = value) p.items p.getSize 0
  if i = p.getSize then none else some i

def lookup [LinearOrder K] (p : BPlusTreeInternalPage K) (key : K) : Option PageIDType := do
  let i ← scan INTERNAL_CAPACITY (fun e => key < e.1) p.items (p.getSize - 1) 1
  p.valueAt (i - 1)

/-- The key of entry 0 stays what it was. -/
def populateNewRoot (p : BPlusTreeInternalPage K) (oldValue : PageIDType) (newKey : K) (newValue : PageIDType) :
    Option (BPlusTreeInternalPage K) :=
  if p.parentPageID = INVALID_PAGE_ID ∧ p.getSize = 0 then do
    let e ← p.items.read INTERNAL_CAPACITY 0
    let a ← p.items.write INTERNAL_CAPACITY 0 (e.1, oldValue)
    let a ← a.write INTERNAL_CAPACITY 1 (newKey, newValue)
    some { p with items := a.setSize 2 }
  else none

def insertNodeAfter (p : BPlusTreeInternalPage K) (oldValue : PageIDType) (newKey : K) (newValue : PageIDType) :
    Option (BPlusTreeInternalPage K) := do
  let (a, i) ← shiftWhile INTERNAL_CAPACITY (fun e => e.2 ≠ oldValue) p.getSize p.items
  if i = 0 then
    -- `oldValue` must exist
    none
  else
    let a ← a.write INTERNAL_CAPACITY i (newKey, newValue)
    some { p with items := a.setSize (p.getSize + 1) }

def remove (p : BPlusTreeInternalPage K) (index : Nat) : Option (BPlusTreeInternalPage K) :=
  if index < p.getSize then do
    let a ← shiftDown INTERNAL_CAPACITY (p.getSize - 1 - index) index p.items
    some { p with items := a.setSize (p.getSize - 1) }
  else none

/-- `n` entries of `m_array + i`. -/
def itemsFrom (p : BPlusTreeInternalPage K) (i n : Nat) : Option (List (K × PageIDType)) :=
  p.items.readN INTERNAL_CAPACITY n i

def setItem (p : BPlusTreeInternalPage K) (i : Nat) (item : K × PageIDType) : Option (BPlusTreeInternalPage K) := do
  let a ← p.items.write INTERNAL_CAPACITY i item
  some { p with items := a }

def append (p : BPlusTreeInternalPage K) (item : K × PageIDType) : Option (BPlusTreeInternalPage K) := do
  let a ← (p.items.setSize (p.getSize + 1)).write INTERNAL_CAPACITY p.getSize item
  some { p with items := a }

/-- The size grows before the entries move up, so one entry behind them moves too. -/
def prepend (p : BPlusTreeInternalPage K) (item : K × PageIDType) : Option (BPlusTreeInternalPage K) := do
  let a ← shiftUp INTERNAL_CAPACITY (p.getSize + 1) (p.items.setSize (p.getSize + 1))
  let a ← a.write INTERNAL_CAPACITY 0 item
  some { p with items := a }

def first (p : BPlusTreeInternalPage K) : Option (K × PageIDType) := p.items.read INTERNAL_CAPACITY 0

/-- `m_array[size - 1]`. -/
def last (p : BPlusTreeInternalPage K) : Option (K × PageIDType) :=
  if p.getSize = 0 then none else p.items.read INTERNAL_CAPACITY (p.getSize - 1)

def dropFirst (p : BPlusTreeInternalPage K) : Option (BPlusTreeInternalPage K) := do
  let a ← shiftDown INTERNAL_CAPACITY (p.getSize - 1) 0 p.items
  some { p with items := a.setSize (p.getSize - 1) }

/-! ### The list of an internal page -/

def toInternalPage (p : BPlusTreeInternalPage K) : InternalPage K :=
  { pageID := p.pageID, parentPageID := p.parentPageID, maxSize := p.maxSize, array := p.items.entries }

section
variable {p : BPlusTreeInternalPage K} {i n : Nat} {e : K × PageIDType}

@[simp] theorem toInternalPage_getSize : p.toInternalPage.array.length = p.getSize := entries_length _

theorem setSize_toInternalPage (h : n ≤ p.getSize) : (p.setSize n).toInternalPage = p.toInternalPage.setSize n := by
  simp [setSize, toInternalPage, InternalPage.setSize, entries_setSize h]

theorem keyAt_toInternalPage (h : p.getSize ≤ INTERNAL_CAPACITY) : p.keyAt i = p.toInternalPage.keyAt i := by
  rw [keyAt, item_entries h]
  rfl

theorem valueAt_toInternalPage (h : p.getSize ≤ INTERNAL_CAPACITY) : p.valueAt i = p.toInternalPage.valueAt i := by
  rw [valueAt, item_entries h]
  rfl

theorem setKeyAt_toInternalPage (h : p.getSize ≤ INTERNAL_CAPACITY) (key : K) :
    (p.setKeyAt i key).map toInternalPage = p.toInternalPage.setKeyAt i key := by
  have hsize : p.toInternalPage.getSize = p.items.size := toInternalPage_getSize
  rw [setKeyAt, item_entries h, entries_getElem?, InternalPage.setKeyAt, hsize]
  by_cases hi : i < p.items.size
  · have hw := write_eq (a := p.items) (hi.trans_le h) (key, (p.items.array i).2)
    have hmod := modify_entries (a := p.items) (i := i) fun e => (key, e.2)
    simp [hi, hw, toInternalPage, hmod]
  · simp [hi]

theorem setKeyAt_sizes {q : BPlusTreeInternalPage K} {key : K} (h : p.setKeyAt i key = some q) :
    q.maxSize = p.maxSize ∧ q.getSize = p.getSize ∧ i < p.getSize := by
  obtain ⟨d, hd, h⟩ := Option.bind_eq_some_iff.1 h
  obtain ⟨a, hw, h⟩ := Option.bind_eq_some_iff.1 h
  obtain rfl := Option.some.inj h
  obtain ⟨hi, -⟩ := Option.ite_none_right_eq_some.1 hd
  obtain ⟨-, hw⟩ := Option.ite_none_right_eq_some.1 hw
  obtain rfl := Option.some.inj hw
  exact ⟨rfl, rfl, hi⟩

theorem valueIndex_toInternalPage (h : p.getSize ≤ INTERNAL_CAPACITY) (value : PageIDType) :
    p.valueIndex value = p.toInternalPage.valueIndex value := by
  have hlist : p.toInternalPage.valueIndex value = p.items.entries.findIdx? fun e => e.2 = value := rfl
  rw [hlist, valueIndex]
  rcases scan_entries (fun e => e.2 = value) h with ⟨hs, hf, -⟩ | ⟨i, hi, hs, hf, -⟩
  · simp [getSize, hs, hf]
  · have hne : i ≠ p.items.size := hi.ne
    simp [getSize, hs, hf, hne]

theorem insertNodeAfter_toInternalPage (h : p.getSize < INTERNAL_CAPACITY) (oldValue : PageIDType) (newKey : K)
    (newValue : PageIDType) :
    (p.insertNodeAfter oldValue newKey newValue).map toInternalPage =
      p.toInternalPage.insertNodeAfter oldValue newKey newValue := by
  obtain ⟨a, a', hs, hw, -, ha⟩ := insert_entries (p := fun e => e.2 ≠ oldValue) h (newKey, newValue)
  have hlist : p.toInternalPage.array = p.items.entries := rfl
  rw [insertNodeAfter, InternalPage.insertNodeAfter, hlist, getSize, hs]
  simp only [Option.bind_eq_bind, Option.bind_some]
  rcases hk : p.items.entries.rdropWhile fun e => e.2 ≠ oldValue with _ | ⟨e, kept⟩
  · rw [hk]
    rfl
  · rw [hk] at hw ha ⊢
    rw [if_neg (show (e :: kept).length ≠ 0 from Nat.succ_ne_zero _), hw]
    exact congrArg some (congrArg (InternalPage.mk _ _ _) ha)

theorem insertNodeAfter_sizes {q : BPlusTreeInternalPage K} {oldValue newValue : PageIDType} {newKey : K}
    (h : p.insertNodeAfter oldValue newKey newValue = some q) : q.maxSize = p.maxSize ∧ q.getSize = p.getSize + 1 := by
  obtain ⟨⟨a, i⟩, -, h⟩ := Option.bind_eq_some_iff.1 h
  obtain ⟨-, h⟩ := Option.ite_none_left_eq_some.1 h
  obtain ⟨a', -, h⟩ := Option.bind_eq_some_iff.1 h
  obtain rfl := Option.some.inj h
  exact ⟨rfl, rfl⟩

theorem populateNewRoot_sizes {q : BPlusTreeInternalPage K} {oldValue newValue : PageIDType} {newKey : K}
    (h : p.populateNewRoot oldValue newKey newValue = some q) : q.maxSize = p.maxSize ∧ q.getSize = 2 := by
  obtain ⟨-, h⟩ := Option.ite_none_right_eq_some.1 h
  obtain ⟨e, -, h⟩ := Option.bind_eq_some_iff.1 h
  obtain ⟨a, -, h⟩ := Option.bind_eq_some_iff.1 h
  obtain ⟨a', -, h⟩ := Option.bind_eq_some_iff.1 h
  obtain rfl := Option.some.inj h
  exact ⟨rfl, rfl⟩

theorem remove_toInternalPage (h : p.getSize ≤ INTERNAL_CAPACITY) : (p.remove i).map toInternalPage =
    p.toInternalPage.remove i := by
  have hsize : p.toInternalPage.getSize = p.getSize := toInternalPage_getSize
  rw [remove, InternalPage.remove, hsize]
  by_cases hi : i < p.getSize
  · obtain ⟨a, hd, -, ha⟩ := erase_entries (n := p.getSize - 1 - i) hi (show p.getSize ≤ _ by omega)
      (show i + (p.getSize - 1 - i) < INTERNAL_CAPACITY by omega)
    rw [if_pos hi, if_pos hi, hd]
    exact congrArg some (congrArg (InternalPage.mk _ _ _) ha)
  · rw [if_neg hi, if_neg hi]
    rfl

theorem remove_sizes {q : BPlusTreeInternalPage K} (h : p.remove i = some q) :
    q.maxSize = p.maxSize ∧ q.getSize = p.getSize - 1 := by
  obtain ⟨-, h⟩ := Option.ite_none_right_eq_some.1 h
  obtain ⟨a, -, h⟩ := Option.bind_eq_some_iff.1 h
  obtain rfl := Option.some.inj h
  exact ⟨rfl, rfl⟩

theorem itemsFrom_toInternalPage (h : p.getSize ≤ INTERNAL_CAPACITY) (hn : i + n ≤ p.getSize) :
    p.itemsFrom i n = some ((p.toInternalPage.array.drop i).take n) := readN_eq h hn

theorem append_toInternalPage (h : p.getSize < INTERNAL_CAPACITY) :
    (p.append e).map toInternalPage = some (p.toInternalPage.append e) := by
  have hw := write_eq (a := p.items.setSize (p.getSize + 1)) h e
  have ha := append_entries (a := p.items) e
  rw [append, hw]
  exact congrArg some (congrArg (InternalPage.mk _ _ _) ha)

theorem prepend_toInternalPage (h : p.getSize + 1 < INTERNAL_CAPACITY) :
    (p.prepend e).map toInternalPage = some (p.toInternalPage.prepend e) := by
  obtain ⟨a, a', hs, hw, hsize, ha⟩ := prepend_entries (a := p.items.setSize (p.getSize + 1)) h e
  have ha : a'.entries = e :: p.items.entries := by
    have hsame : a'.setSize (p.getSize + 1) = a' := by rw [← show a'.size = p.getSize + 1 from hsize]; rfl
    rw [← hsame, ha p.getSize (Nat.le_succ _)]
    rfl
  rw [prepend, hs]
  simp only [Option.bind_eq_bind, Option.bind_some, hw]
  exact congrArg some (congrArg (InternalPage.mk _ _ _) ha)

theorem first_toInternalPage (h : p.getSize ≤ INTERNAL_CAPACITY) (he : p.toInternalPage.array.head? = some e) :
    p.first = some e := by
  rw [List.head?_eq_getElem?] at he
  obtain ⟨hlt, -⟩ := List.getElem?_eq_some_iff.1 he
  rw [toInternalPage_getSize] at hlt
  rw [first, read_eq (hlt.trans_le h), ← he]
  exact (entries_of_lt hlt).symm

theorem last_toInternalPage (h : p.getSize ≤ INTERNAL_CAPACITY) (he : p.toInternalPage.array.getLast? = some e) :
    p.last = some e := by
  rw [List.getLast?_eq_getElem?, toInternalPage_getSize] at he
  obtain ⟨hlt, -⟩ := List.getElem?_eq_some_iff.1 he
  rw [toInternalPage_getSize] at hlt
  rw [last, if_neg (by omega), read_eq (by omega), ← he]
  exact (entries_of_lt hlt).symm

theorem dropFirst_toInternalPage (h : p.getSize ≤ INTERNAL_CAPACITY) (h0 : 0 < p.getSize) :
    p.dropFirst.map toInternalPage = some { p.toInternalPage with array := p.toInternalPage.array.tail } := by
  obtain ⟨a, hs, -, ha⟩ := erase_entries (i := 0) (n := p.getSize - 1) h0 (show p.getSize ≤ _ by omega)
    (show 0 + (p.getSize - 1) < INTERNAL_CAPACITY by omega)
  rw [List.eraseIdx_zero] at ha
  rw [dropFirst, hs]
  exact congrArg some (congrArg (InternalPage.mk _ _ _) ha)

end

theorem lookupFrom_eq [LinearOrder K] (key : K) (e : K × PageIDType) (rest : List (K × PageIDType)) :
    some (InternalPage.lookupFrom key e.2 rest) = (e :: rest)[rest.findIdx fun e => key < e.1]?.map (·.2) := by
  induction rest generalizing e with
  | nil => rfl
  | cons d rest ih =>
    rw [InternalPage.lookupFrom, List.findIdx_cons]
    by_cases hd : key < d.1
    · simp [hd]
    · simp [hd, ih d]

theorem lookup_toInternalPage [LinearOrder K] {p : BPlusTreeInternalPage K}
    (h : p.getSize ≤ INTERNAL_CAPACITY) (key : K) :
    p.lookup key = p.toInternalPage.lookup key := by
  have hlist : p.toInternalPage.array = p.items.entries := rfl
  rw [InternalPage.lookup, hlist]
  rcases he : p.items.entries with _ | ⟨e, rest⟩
  · have h0 : p.getSize = 0 := by rw [← toInternalPage_getSize, hlist, he, List.length_nil]
    have hnone : p.items.item INTERNAL_CAPACITY 0 = none := item_none (show ¬ 0 < p.getSize by omega)
    simp [lookup, h0, scan, valueAt, hnone]
  · have hsize : p.getSize = rest.length + 1 := by rw [← toInternalPage_getSize, hlist, he, List.length_cons]
    rw [lookup, scan_eq h (show 1 + (p.getSize - 1) = p.getSize by omega), he]
    simp only [Option.bind_eq_bind, Option.bind_some]
    rw [valueAt_toInternalPage h, Nat.add_sub_cancel_left, lookupFrom_eq, InternalPage.valueAt, hlist, he]
    rfl

theorem populateNewRoot_init [Inhabited K] (pageID : PageIDType) (parentID : Option PageIDType) (maxSize : Nat)
    (oldValue : PageIDType) (newKey : K) (newValue : PageIDType) :
    ((init pageID parentID maxSize).populateNewRoot oldValue newKey newValue).map toInternalPage =
      (InternalPage.init pageID parentID maxSize).populateNewRoot oldValue newKey newValue := by
  rw [populateNewRoot, InternalPage.populateNewRoot]
  by_cases hp : parentID = INVALID_PAGE_ID
  · rw [if_pos ⟨hp, rfl⟩, if_pos ⟨hp, rfl⟩]
    have h1 : 1 < INTERNAL_CAPACITY := by decide
    simp [init, InternalPage.init, toInternalPage, BoundedArray.read, BoundedArray.write, Nat.zero_lt_one.trans h1, h1,
      entries, BoundedArray.setSize, List.range_succ]
    rfl
  · rw [if_neg fun h => hp h.1, if_neg fun h => hp h.1]
    rfl

end BPlusTreeInternalPage

/-! ## Pages of the file -/

abbrev ArrayPage (K V : Type) := IndexFilePage (BPlusTreeLeafPage K V) (BPlusTreeInternalPage K)

section
variable {K V : Type}

instance : TreePage (BPlusTreeLeafPage K V) where
  base p := ⟨true, p.pageID, p.parentPageID, p.getSize, p.maxSize⟩
  setParentPageID parent p := { p with parentPageID := parent }

instance : TreePage (BPlusTreeInternalPage K) where
  base p := ⟨false, p.pageID, p.parentPageID, p.getSize, p.maxSize⟩
  setParentPageID parent p := { p with parentPageID := parent }

instance [LinearOrder K] : Branching K (BPlusTreeInternalPage K) where
  valueAt := BPlusTreeInternalPage.valueAt
  lookup := BPlusTreeInternalPage.lookup

def ArrayPage.toIndexPage : ArrayPage K V → IndexPage K V
  | .zero => .zero
  | .header h => .header h
  | .free f => .free f
  | .leaf p => .leaf p.toLeafPage
  | .internal p => .internal p.toInternalPage

end

end MisakiDB
