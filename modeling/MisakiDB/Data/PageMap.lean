import MisakiDB.Data.PageThreads
/-!
# A data page as a map

One caller inserts records that fit and removes live ones. `live` is what its calls
said: the record and the flag under each slot. `Represents` is what the page then
is: `getRecordValue` reads `live`, the counters count it, and each byte from the
free-space end on belongs to one live record.
-/

namespace MisakiDB.DataFilePage

open Runs

/-! ## The system -/

structure PageState where
  page : RawPage
  live : Nat → Option (List Byte × Bool)

inductive PageCall
  | insertRecord (record : List Byte) (isBlob : Bool)
  | removeRecord (slotArrayIndex : Nat)

namespace PageState

def Init (s : PageState) : Prop := (∃ p, s.page = init p) ∧ s.live = fun _ => none

/-- A call. What it needs of its caller: a record with a key that fits, a live slot. -/
inductive Step (s : PageState) : PageCall → PageState → Prop
  | insertRecord {record b i p} : RECORD_KEY_SIZE ≤ record.length → PageThreads.Room s.page record.length →
      insertRecord s.page record b = some (i, p) →
      Step s (.insertRecord record b) ⟨p, Function.update s.live i (some (record, b))⟩
  | removeRecord {i r p} : (s.live i).isSome → removeRecord s.page i = some (r, p) →
      Step s (.removeRecord i) ⟨p, Function.update s.live i none⟩

end PageState

/-! ## The page represents the map -/

/-- What `getRecordValue` is to return for a slot. -/
def valueUnder (key : List Byte) (r : Option (List Byte × Bool)) : Option (List Byte × Bool) :=
  r.bind fun (record, b) => if record.take RECORD_KEY_SIZE = key then some (record.drop RECORD_KEY_SIZE, b) else none

/-- Byte `u` of the page lies in the record of the slot. -/
def HasByte (p : RawPage) (slotArrayIndex u : Nat) : Prop :=
  getRecordOffset p slotArrayIndex ≤ u ∧ u < getRecordOffset p slotArrayIndex + getRecordLength p slotArrayIndex

structure Represents (p : RawPage) (live : Nat → Option (List Byte × Bool)) : Prop where
  slot_lt : ∀ i : Nat, (live i).isSome → i < getSlotsNum p
  value : ∀ key (i : Nat), i < getSlotsNum p → getRecordValue p key i = some (valueUnder key (live i))
  record : ∀ i record b, live i = some (record, b) → getRecordLength p i = record.length ∧ isBlob p i = b ∧
    m_freeSpaceEndOffset p ≤ getRecordOffset p i ∧ getRecordOffset p i + record.length ≤ PAGE_SIZE ∧
    read p (getRecordOffset p i).toNat record.length = record
  /-- No gaps, no overlaps. -/
  tiles : ∀ u : Nat, m_freeSpaceEndOffset p ≤ u → u < PAGE_SIZE → ∃! i, (live i).isSome ∧ HasByte p i u
  clear : MIN_FIXED_SIZE + SLOT_SIZE * getSlotsNum p ≤ m_freeSpaceEndOffset p
  recordNum : m_recordNum p = (List.range (getSlotsNum p).toNat).countP fun i => (live i).isSome
  invalidSlotNum : m_invalidSlotNum p = (List.range (getSlotsNum p).toNat).countP fun i => (live i).isNone

/-- The live slots are those of the records in the page. -/
def Lists (live : Nat → Option (List Byte × Bool)) (area : List Rec) : Prop :=
  ∀ i record b, live i = some (record, b) ↔ ⟨i, record, b⟩ ∈ area

section
variable {p : RawPage} {live : Nat → Option (List Byte × Bool)} {N : Nat} {area : List Rec}

theorem Lists.isSome_iff (h : Lists live area) (i : Nat) : (live i).isSome ↔ i ∈ slots area := by
  rw [Option.isSome_iff_exists, mem_slots]
  constructor
  · rintro ⟨⟨record, b⟩, hi⟩
    exact ⟨_, (h i record b).1 hi, rfl⟩
  · rintro ⟨r, hr, rfl⟩
    exact ⟨_, (h r.slot r.bytes r.isBlob).2 hr⟩

theorem Lists.none_iff (h : Lists live area) (i : Nat) : live i = none ↔ i ∉ slots area := by
  rw [← h.isSome_iff, Option.not_isSome_iff_eq_none]

theorem Area.hasByte {o u : Nat} {rs : List Rec} (h : Area p o rs) {i : Nat} (hi : i ∈ slots rs) (hu : HasByte p i u) :
    o ≤ u ∧ u < o + size rs := by
  obtain ⟨r, hr, rfl⟩ := mem_slots.1 hi
  obtain ⟨v, hv, hend, hoff, hlen, -⟩ := h.mem hr
  unfold HasByte at hu
  rw [hoff, hlen] at hu
  omega

/-- Records that lie one after the other share no byte and leave none out. -/
theorem Area.tiles {o : Nat} {rs : List Rec} (h : Area p o rs) (hn : (slots rs).Nodup) {u : Nat} (hu : o ≤ u)
    (hlt : u < o + size rs) : ∃! i, i ∈ slots rs ∧ HasByte p i u := by
  induction rs generalizing o with
  | nil =>
    rw [size, List.map_nil, List.sum_nil] at hlt
    omega
  | cons r rs ih =>
    obtain ⟨⟨hoff, hlen, -, -⟩, hrest⟩ := h
    rw [size_cons] at hlt
    obtain ⟨hnew, hn⟩ := List.nodup_cons.1 hn
    have hbyte : HasByte p r.slot u ↔ u < o + r.bytes.length := by
      unfold HasByte
      rw [hoff, hlen]
      omega
    by_cases hin : u < o + r.bytes.length
    · refine ⟨r.slot, ⟨by simp [slots], hbyte.2 hin⟩, ?_⟩
      rintro i ⟨hi, hbi⟩
      rcases List.mem_cons.1 hi with rfl | hi
      · rfl
      · have := (hrest.hasByte hi hbi).1
        omega
    · obtain ⟨i, ⟨hi, hbi⟩, huniq⟩ := ih hrest hn (by omega) (by omega)
      refine ⟨i, ⟨List.mem_cons_of_mem _ hi, hbi⟩, ?_⟩
      rintro j ⟨hj, hbj⟩
      rcases List.mem_cons.1 hj with rfl | hj
      · exact absurd (hbyte.1 hbj) hin
      · exact huniq j ⟨hj, hbj⟩

/-- As many slots are live as there are records. -/
theorem Lists.count (h : Lists live area) (hh : Holds p N area) :
    (List.range N).countP (fun i => (live i).isSome) = area.length := by
  have hslots : (area.map Rec.slot).length = area.length := List.length_map Rec.slot
  rw [List.countP_eq_length_filter, ← hslots]
  apply List.Perm.length_eq
  apply (List.perm_ext_iff_of_nodup (List.nodup_range.filter _) hh.nodup).2
  intro i
  rw [List.mem_filter, h.isSome_iff]
  refine ⟨And.right, fun hi => ⟨?_, hi⟩⟩
  obtain ⟨r, hr, rfl⟩ := mem_slots.1 hi
  exact List.mem_range.2 (hh.lt r hr)

theorem Lists.represents (h : Lists live area) (hh : Holds p N area) : Represents p live where
  slot_lt i hi := by
    obtain ⟨r, hr, rfl⟩ := mem_slots.1 ((h.isSome_iff i).1 hi)
    have := hh.lt r hr
    rw [hh.getSlotsNum]
    omega
  value key i hi := by
    rw [hh.getSlotsNum] at hi
    cases hlive : live i with
    | none => exact getRecordValue_free hh (by omega) ((h.none_iff i).1 hlive) key
    | some r => exact getRecordValue_holds hh ((h i r.1 r.2).1 hlive) key
  record i record b hi := by
    obtain ⟨u, hu, hend, hoff, hlen, hblob, hread⟩ := hh.tiles.mem ((h i record b).1 hi)
    have hfse := hh.freeSpaceEnd
    have hroom := hh.room
    refine ⟨hlen, hblob, ?_, ?_, ?_⟩
    · rw [hoff]
      omega
    · rw [hoff]
      simp only at hend
      omega
    · rw [hoff]
      exact hread
  tiles u hu hlt := by
    have hfse := hh.freeSpaceEnd
    have hroom := hh.room
    simp only [h.isSome_iff]
    exact hh.tiles.tiles hh.nodup (by omega) (by omega)
  clear := by
    have hroom := hh.room
    have hfse := hh.freeSpaceEnd
    rw [slotAt_eq] at hroom
    rw [hh.getSlotsNum, MIN_FIXED_SIZE, SLOT_SIZE]
    omega
  recordNum := by
    rw [hh.getSlotsNum, Int.toNat_natCast, h.count hh, hh.recordNum]
  invalidSlotNum := by
    have hcount := List.length_eq_countP_add_countP (fun i => (live i).isSome) (l := List.range N)
    have hinv := hh.invalidSlotNum
    have hnone : ∀ i, decide (¬ (live i).isSome = true) = (live i).isNone := fun i => by cases live i <;> rfl
    rw [h.count hh, List.length_range] at hcount
    simp only [hnone] at hcount
    rw [hh.getSlotsNum, Int.toNat_natCast]
    omega

/-! ## The two calls -/

theorem Holds.fits (h : Holds p N area) {n : Nat} (hroom : PageThreads.Room p n) :
    slotAt (grow N area) + size area + n ≤ PAGE_SIZE := by
  have hfse := h.freeSpaceEnd
  have hinv := h.invalidSlotNum
  rw [PageThreads.Room, h.getSlotsNum, MIN_FIXED_SIZE, SLOT_SIZE] at hroom
  unfold grow
  split
  · rw [if_pos (by omega)] at hroom
    rw [slotAt_eq]
    omega
  · rw [if_neg (by omega)] at hroom
    rw [slotAt_eq]
    omega

theorem Lists.insert (h : Lists live area) {i : Nat} (hi : i ∉ slots area) (record : List Byte) (b : Bool) :
    Lists (Function.update live i (some (record, b))) (⟨i, record, b⟩ :: area) := by
  intro j record' b'
  by_cases hj : j = i
  · subst hj
    have hnot : (⟨j, record', b'⟩ : Rec) ∉ area := fun hmem => hi (mem_slots.2 ⟨_, hmem, rfl⟩)
    simp [hnot, eq_comm]
  · rw [Function.update_of_ne hj, h j, List.mem_cons]
    simp [hj]

theorem Lists.remove {front back : List Rec} {r : Rec} (h : Lists live (front ++ r :: back))
    (hn : (slots (front ++ r :: back)).Nodup) : Lists (Function.update live r.slot none) (front ++ back) := by
  have hperm : (slots (front ++ r :: back)).Perm (r.slot :: slots (front ++ back)) := by
    simp only [slots, List.map_append, List.map_cons]
    exact List.perm_middle
  obtain ⟨hnew, -⟩ := List.nodup_cons.1 (hperm.nodup_iff.1 hn)
  intro j record b
  by_cases hj : j = r.slot
  · subst hj
    rw [Function.update_self]
    refine ⟨fun hc => by simp at hc, fun hmem => absurd (mem_slots.2 ⟨_, hmem, rfl⟩) hnew⟩
  · have hne : (⟨j, record, b⟩ : Rec) ≠ r := fun heq => hj (heq ▸ rfl)
    rw [Function.update_of_ne hj, h j, List.mem_append, List.mem_append, List.mem_cons]
    simp [hne]

/-- The page holds the live records. -/
def Kept (s : PageState) : Prop := ∃ N area, Holds s.page N area ∧ Lists s.live area

variable {s s' : PageState}

theorem Kept.represents (h : Kept s) : Represents s.page s.live := by
  obtain ⟨N, area, hh, hl⟩ := h
  exact hl.represents hh

theorem Kept.insert (h : Kept s) {record : List Byte} (b : Bool) (hkey : RECORD_KEY_SIZE ≤ record.length)
    (hroom : PageThreads.Room s.page record.length) :
    ∃ i q, insertRecord s.page record b = some (i, q) ∧ s.live i = none ∧
      Kept ⟨q, Function.update s.live i (some (record, b))⟩ := by
  obtain ⟨N, area, hh, hl⟩ := h
  obtain ⟨i, q, hrun, hnew, -, hq⟩ := insertRecord_holds (b := b) hh hkey (hh.fits hroom)
  exact ⟨i, q, hrun, (hl.none_iff i).2 hnew, _, _, hq, hl.insert hnew record b⟩

theorem Kept.remove (h : Kept s) {i : Nat} {record : List Byte} {b : Bool} (hi : s.live i = some (record, b)) :
    ∃ q, removeRecord s.page i = some (removed ⟨i, record, b⟩, q) ∧ Kept ⟨q, Function.update s.live i none⟩ := by
  obtain ⟨N, area, hh, hl⟩ := h
  obtain ⟨front, back, rfl⟩ := List.append_of_mem ((hl i record b).1 hi)
  obtain ⟨q, hrun, hq⟩ := removeRecord_holds hh
  exact ⟨q, hrun, _, _, hq, hl.remove hh.nodup⟩

theorem Kept.step {c : PageCall} (h : Kept s) (hstep : s.Step c s') : Kept s' := by
  cases hstep with
  | insertRecord hkey hroom hrun =>
    obtain ⟨i, q, hrun', -, hk⟩ := h.insert _ hkey hroom
    rw [hrun, Option.some.injEq, Prod.mk.injEq] at hrun'
    obtain ⟨rfl, rfl⟩ := hrun'
    exact hk
  | removeRecord hi hrun =>
    obtain ⟨⟨record, b⟩, hi⟩ := Option.isSome_iff_exists.1 hi
    obtain ⟨q, hrun', hk⟩ := h.remove hi
    rw [hrun, Option.some.injEq, Prod.mk.injEq] at hrun'
    obtain ⟨-, rfl⟩ := hrun'
    exact hk

theorem kept_reach (h : Reach PageState.Init PageState.Step s) : Kept s := by
  refine h.inv (fun s hs => ?_) fun _ _ _ hk hstep => hk.step hstep
  obtain ⟨⟨p, hp⟩, hl⟩ := hs
  refine ⟨0, [], hp ▸ init_holds p, fun i record b => ?_⟩
  simp [hl]

/-- In every run the page is the map of the live records, and each call does what a
map does. -/
theorem page_is_map (h : Reach PageState.Init PageState.Step s) :
    Represents s.page s.live ∧
    (∀ record b, RECORD_KEY_SIZE ≤ record.length → PageThreads.Room s.page record.length →
      ∃ i q, insertRecord s.page record b = some (i, q) ∧ s.live i = none ∧
        Represents q (Function.update s.live i (some (record, b)))) ∧
    ∀ i record b, s.live i = some (record, b) →
      ∃ q, removeRecord s.page i =
          some (if b then .inr (record.drop RECORD_KEY_SIZE) else .inl record.length, q) ∧
        Represents q (Function.update s.live i none) := by
  have hk := kept_reach h
  refine ⟨hk.represents, fun record b hkey hroom => ?_, fun i record b hi => ?_⟩
  · obtain ⟨i, q, hrun, hnew, hq⟩ := hk.insert b hkey hroom
    exact ⟨i, q, hrun, hnew, hq.represents⟩
  · obtain ⟨q, hrun, hq⟩ := hk.remove hi
    exact ⟨q, hrun, hq.represents⟩

end

def plainRecord : List Byte := List.replicate 26 1
def blobRecord : List Byte := List.replicate 30 2
def longRecord : List Byte := List.replicate 40 3

/-- The first of two records goes, so the second, that of a blob, moves up; a third takes
the slot of the first. -/
theorem page_is_map_moved : ∃ s : PageState, Reach PageState.Init PageState.Step s ∧
    s.live = (fun i => if i = 1 then some (blobRecord, true) else none) ∧ Represents s.page s.live ∧
    (∃ q, insertRecord s.page longRecord false = some (0, q) ∧
      Represents q (Function.update s.live 0 (some (longRecord, false)))) ∧
    ∃ q, removeRecord s.page 1 = some (.inr (List.replicate 6 2), q) ∧ Represents q fun _ => none := by
  have hroom0 : PageThreads.Room (init fun _ => 0) plainRecord.length := by decide +kernel
  have hslots : ∀ r ∈ insertRecord (init fun _ => 0) plainRecord false, r.1 = 0 ∧
      PageThreads.Room r.2 blobRecord.length ∧
      ∀ r' ∈ insertRecord r.2 blobRecord true, r'.1 = 1 ∧
      ∀ r'' ∈ removeRecord r'.2 0, PageThreads.Room r''.2 longRecord.length ∧
      ∀ q ∈ insertRecord r''.2 longRecord false, q.1 = 0 := by
    decide +kernel
  have h0 : Reach PageState.Init PageState.Step ⟨init fun _ => 0, fun _ => none⟩ := .start ⟨⟨_, rfl⟩, rfl⟩
  obtain ⟨i, p, hrun, -, -⟩ := (page_is_map h0).2.1 plainRecord false (by decide) hroom0
  obtain ⟨rfl, hroom, hslots⟩ := hslots _ hrun
  have h1 := h0.next (.insertRecord (by decide) hroom0 hrun)
  obtain ⟨j, p', hrun, -, -⟩ := (page_is_map h1).2.1 blobRecord true (by decide) hroom
  obtain ⟨rfl, hslots⟩ := hslots _ hrun
  have h2 := h1.next (.insertRecord (by decide) hroom hrun)
  obtain ⟨p'', hrun, -⟩ := (page_is_map h2).2.2 0 plainRecord false rfl
  obtain ⟨hroom, hslots⟩ := hslots _ hrun
  have hlive : Function.update (Function.update (Function.update (fun _ => (none : Option (List Byte × Bool)))
      0 (some (plainRecord, false))) 1 (some (blobRecord, true))) 0 none =
      fun i => if i = 1 then some (blobRecord, true) else none := by
    funext i
    rcases i with _ | _ | i <;> simp
  have h3 := h2.next (.removeRecord rfl hrun)
  obtain ⟨hrep, hinsert, hremove⟩ := page_is_map h3
  refine ⟨_, h3, hlive, hrep, ?_, ?_⟩
  · obtain ⟨k, q, hrun, -, hq⟩ := hinsert longRecord false (by decide) hroom
    obtain rfl := hslots _ hrun
    exact ⟨q, hrun, hq⟩
  · obtain ⟨q, hrun, hq⟩ := hremove 1 blobRecord true rfl
    have hempty : Function.update (fun i => if i = 1 then some (blobRecord, true) else none) 1 none =
        fun _ => none := by
      funext i
      rcases i with _ | _ | i <;> simp
    rw [← hempty, ← hlive]
    exact ⟨q, hrun, hq⟩

end MisakiDB.DataFilePage
