import MisakiDB.Data.FreeSpaceMap
import MisakiDB.Lib.Runs
import Mathlib.Data.Fintype.Basic
/-!
# One data page and its map entry under many threads

An insert reserves in the map entry and writes its record to the page later; a
remove takes its record off the page and credits the entry later. Between the two
steps of one thread the others take theirs, so the entry and the page disagree on
free bytes and on invalid slots.

The invariant that ties them (`Covered`) counts the slots that reservations paid
for and the page has not made yet: `spare`. What the entry calls free, the spare
slots and all that is reserved or to be credited fit in the page's free space; the
invalid slots of the entry, and one for each thread that is not idle, are those of
the page and the spare ones.
-/

namespace MisakiDB.PageThreads

open DataFilePage

/-- What a thread still has to do. -/
inductive Phase
  | idle
  | inserting (record : List Byte) (isBlob : Bool)
  | crediting (recordSize : Nat)
  deriving DecidableEq

structure State (τ : Type) where
  page : RawPage
  entry : FreeSpaceEntry
  phase : τ → Phase

inductive Event (τ : Type)
  | reserve (t : τ) (key value : List Byte) (isBlob : Bool)
  | insert (t : τ)
  | remove (t : τ) (slotArrayIndex : Nat)
  | credit (t : τ)

/-- What `DataAccessor::removeRecord` passes to `addFreeSpace`. -/
def credited : Int ⊕ List Byte → Nat
  | .inl recordLength => recordLength.toNat
  | .inr blobFirstPageID => blobFirstPageID.length

section
variable {τ : Type} [DecidableEq τ]

def State.setPhase (s : State τ) (t : τ) (x : Phase) : State τ := { s with phase := Function.update s.phase t x }

/-- One atomic step. A record is a key and a value, as `insertRecord` builds it. -/
inductive Step (s : State τ) : Event τ → State τ → Prop
  | reserve {t key value isBlob} : s.phase t = .idle → key.length = RECORD_KEY_SIZE →
      s.entry.fits (key ++ value).length = true →
      Step s (.reserve t key value isBlob)
        { s.setPhase t (.inserting (key ++ value) isBlob) with entry := s.entry.reserve (key ++ value).length }
  | insert {t record isBlob i page'} : s.phase t = .inserting record isBlob →
      insertRecord s.page record isBlob = some (i, page') →
      Step s (.insert t) { s.setPhase t .idle with page := page' }
  | remove {t i r page'} : s.phase t = .idle → removeRecord s.page i = some (r, page') →
      Step s (.remove t i) { s.setPhase t (.crediting (credited r)) with page := page' }
  | credit {t n} : s.phase t = .crediting n →
      Step s (.credit t) { s.setPhase t .idle with entry := s.entry.addFreeSpace n }

/-- The step, computed. -/
def State.next (s : State τ) : Event τ → Option (State τ)
  | .reserve t key value isBlob =>
    if s.phase t = .idle ∧ key.length = RECORD_KEY_SIZE ∧ s.entry.fits (key ++ value).length = true then
      some { s.setPhase t (.inserting (key ++ value) isBlob) with entry := s.entry.reserve (key ++ value).length }
    else none
  | .insert t =>
    match s.phase t with
    | .inserting record isBlob => (insertRecord s.page record isBlob).map fun r =>
      { s.setPhase t .idle with page := r.2 }
    | _ => none
  | .remove t i =>
    if s.phase t = .idle then
      (removeRecord s.page i).map fun r => { s.setPhase t (.crediting (credited r.1)) with page := r.2 }
    else none
  | .credit t =>
    match s.phase t with
    | .crediting n => some { s.setPhase t .idle with entry := s.entry.addFreeSpace n }
    | _ => none

theorem State.next_step {s s' : State τ} {e : Event τ} (h : s.next e = some s') : Step s e s' := by
  cases e with
  | reserve t key value isBlob =>
    simp only [State.next] at h
    split at h
    · rename_i hg
      cases h
      exact .reserve hg.1 hg.2.1 hg.2.2
    · cases h
  | insert t =>
    simp only [State.next] at h
    split at h
    · rename_i ht
      obtain ⟨r, hins, rfl⟩ := Option.map_eq_some_iff.1 h
      exact .insert ht hins
    · cases h
  | remove t i =>
    simp only [State.next] at h
    split at h
    · rename_i ht
      obtain ⟨r, hrem, rfl⟩ := Option.map_eq_some_iff.1 h
      exact .remove ht hrem
    · cases h
  | credit t =>
    simp only [State.next] at h
    split at h
    · rename_i ht
      cases h
      exact .credit ht
    · cases h

/-- An intact page whose entry agrees with it, before any thread starts. -/
def Init (s : State τ) : Prop :=
  (∃ N area, DataFilePage.Holds s.page N area) ∧ Agrees s.page s.entry ∧ ∀ t, s.phase t = .idle

/-- The record fits between the slots, with the one it takes, and the records. -/
def Room (p : RawPage) (recordSize : Nat) : Prop :=
  MIN_FIXED_SIZE + SLOT_SIZE * (getSlotsNum p + if m_invalidSlotNum p = 0 then 1 else 0) + recordSize ≤ m_freeSpaceEndOffset p

instance (p : RawPage) (recordSize : Nat) : Decidable (Room p recordSize) := inferInstanceAs (Decidable (_ ≤ _))

end

/-! ## The invariant -/

/-- Bytes reserved, or to be credited. -/
def Phase.bytes : Phase → Nat
  | .idle => 0
  | .inserting record _ => record.length
  | .crediting n => n

def Phase.busy : Phase → Nat
  | .idle => 0
  | _ => 1

section Counts
variable {record : List Byte} {b : Bool} {n : Nat}

theorem Phase.bytes_idle : Phase.idle.bytes = 0 := rfl
theorem Phase.bytes_inserting : (Phase.inserting record b).bytes = record.length := rfl
theorem Phase.bytes_crediting : (Phase.crediting n).bytes = n := rfl
theorem Phase.busy_idle : Phase.idle.busy = 0 := rfl
theorem Phase.busy_inserting : (Phase.inserting record b).busy = 1 := rfl
theorem Phase.busy_crediting : (Phase.crediting n).busy = 1 := rfl

end Counts

/-- A record to be inserted has a key. -/
def Phase.Keyed : Phase → Prop
  | .inserting record _ => RECORD_KEY_SIZE ≤ record.length
  | _ => True

section
variable {τ : Type} [Fintype τ]

structure Covered (s : State τ) (N : Nat) (area : List Rec) (spare : Nat) : Prop where
  holds : DataFilePage.Holds s.page N area
  bytes : s.entry.freeSpace + SLOT_SIZE * spare + (∑ t, (s.phase t).bytes) + slotAt N + size area ≤ PAGE_SIZE
  slots : s.entry.invalidSlotNum + (∑ t, (s.phase t).busy) + area.length = N + spare
  keyed : ∀ t, (s.phase t).Keyed

variable {s s' : State τ}

theorem init_covered (h : Init s) : ∃ N area spare, Covered s N area spare := by
  obtain ⟨⟨N, area, hholds⟩, hagrees, hidle⟩ := h
  obtain ⟨hf, hi⟩ := hholds.agrees_iff.1 hagrees
  refine ⟨N, area, 0, hholds, ?_, ?_, fun t => by rw [hidle]; trivial⟩
  · simp only [hidle, Phase.bytes_idle, Finset.sum_const_zero]
    omega
  · simp only [hidle, Phase.busy_idle, Finset.sum_const_zero]
    omega

omit [Fintype τ] in
theorem keyed_update [DecidableEq τ] (h : ∀ t, (s.phase t).Keyed) (t : τ) {x : Phase} (hx : x.Keyed) :
    ∀ u, (Function.update s.phase t x u).Keyed := fun u => by
  by_cases hu : u = t
  · rwa [hu, Function.update_self]
  · rw [Function.update_of_ne hu]
    exact h u

variable {N spare : Nat} {area : List Rec} {t : τ}

theorem Covered.entry_lt (h : Covered s N area spare) :
    s.entry.freeSpace ≤ PAGE_SIZE ∧ s.entry.invalidSlotNum ≤ 2 * PAGE_SIZE := by
  have hb := h.bytes
  have hs := h.slots
  have hslot : SLOT_SIZE = 5 := rfl
  have hPAGE : PAGE_SIZE = 4096 := rfl
  rw [slotAt_eq, hslot] at hb
  omega

variable [DecidableEq τ]

/-- A page whose reservations are covered has room for each of them. -/
theorem Covered.room (h : Covered s N area spare) {record : List Byte} {b : Bool}
    (ht : s.phase t = .inserting record b) :
    slotAt (grow N area) + size area + record.length ≤ PAGE_SIZE := by
  have hb := h.bytes
  have hs := h.slots
  have hbytes := Runs.le_sum Phase.bytes s.phase t
  have hbusy := Runs.le_sum Phase.busy s.phase t
  have hslot : SLOT_SIZE = 5 := rfl
  rw [ht] at hbytes hbusy
  rw [Phase.bytes_inserting] at hbytes
  rw [Phase.busy_inserting] at hbusy
  rw [hslot] at hb
  unfold grow
  split
  · -- no invalid slot: one of the reservations paid for the slot
    rw [slotAt_eq] at hb ⊢
    omega
  · omega

theorem Covered.reserve (h : Covered s N area spare) {key value : List Byte} {b : Bool} (ht : s.phase t = .idle)
    (hkey : key.length = RECORD_KEY_SIZE) (hfits : s.entry.fits (key ++ value).length = true) :
    ∃ spare', Covered { s.setPhase t (.inserting (key ++ value) b) with entry := s.entry.reserve (key ++ value).length }
      N area spare' := by
  obtain ⟨hf, hi⟩ := h.entry_lt
  have hPAGE : PAGE_SIZE = 4096 := rfl
  have hslot : SLOT_SIZE = 5 := rfl
  obtain ⟨hle, hres⟩ := FreeSpaceEntry.reserve_eq hfits (by omega) (by omega)
  have hb := h.bytes
  have hs := h.slots
  have hbytes := Runs.sum_update Phase.bytes s.phase t (.inserting (key ++ value) b)
  have hbusy := Runs.sum_update Phase.busy s.phase t (.inserting (key ++ value) b)
  rw [ht] at hbytes hbusy
  rw [Phase.bytes_idle, Phase.bytes_inserting] at hbytes
  rw [Phase.busy_idle, Phase.busy_inserting] at hbusy
  rw [hslot] at hb
  refine ⟨if 0 < s.entry.invalidSlotNum then spare else spare + 1, h.holds, ?_, ?_,
    keyed_update h.keyed t (by simp only [Phase.Keyed, List.length_append]; omega)⟩
  · simp only [State.setPhase, hslot, hres]
    unfold FreeSpaceEntry.slotCost at hle ⊢
    rw [hslot] at hle ⊢
    split at hle <;> split <;> omega
  · simp only [State.setPhase, hres]
    split <;> omega

theorem Covered.insert (h : Covered s N area spare) {record : List Byte} {b : Bool} {i : Nat} {page' : RawPage}
    (ht : s.phase t = .inserting record b) (hins : insertRecord s.page record b = some (i, page')) :
    ∃ N' area' spare', Covered { s.setPhase t .idle with page := page' } N' area' spare' := by
  have hkey : RECORD_KEY_SIZE ≤ record.length := by
    have := h.keyed t
    rwa [ht] at this
  obtain ⟨j, q, hrun, -, -, hholds⟩ := insertRecord_holds (b := b) h.holds hkey (h.room ht)
  rw [hins, Option.some.injEq, Prod.mk.injEq] at hrun
  obtain ⟨rfl, rfl⟩ := hrun
  have hb := h.bytes
  have hs := h.slots
  have hslot : SLOT_SIZE = 5 := rfl
  have hbytes := Runs.sum_update Phase.bytes s.phase t .idle
  have hbusy := Runs.sum_update Phase.busy s.phase t .idle
  rw [ht] at hbytes hbusy
  rw [Phase.bytes_idle, Phase.bytes_inserting] at hbytes
  rw [Phase.busy_idle, Phase.busy_inserting] at hbusy
  rw [hslot] at hb
  refine ⟨grow N area, _, if area.length = N then spare - 1 else spare, hholds, ?_, ?_, keyed_update h.keyed t trivial⟩
  · simp only [State.setPhase, hslot, size_cons]
    unfold grow
    rw [slotAt_eq] at hb
    split <;> rw [slotAt_eq] <;> omega
  · simp only [State.setPhase, List.length_cons]
    unfold grow
    split <;> omega

theorem credited_le (r : Rec) : credited (removed r) ≤ r.bytes.length := by
  unfold removed
  split <;> simp [credited]

/-- A slot that `removeRecord` accepts holds a record. -/
theorem mem_of_removeRecord {p page' : RawPage} {i : Nat} {r : Int ⊕ List Byte} (h : DataFilePage.Holds p N area)
    (hrem : removeRecord p i = some (r, page')) : ∃ q ∈ area, q.slot = i := by
  unfold removeRecord at hrem
  split at hrem
  · rename_i hlive
    rw [h.getSlotsNum] at hlive
    by_contra hnot
    exact hlive.2 (h.free i (by omega) fun hmem => hnot (mem_slots.1 hmem))
  · simp at hrem

theorem Covered.remove (h : Covered s N area spare) {i : Nat} {r : Int ⊕ List Byte} {page' : RawPage}
    (ht : s.phase t = .idle) (hrem : removeRecord s.page i = some (r, page')) :
    ∃ area', Covered { s.setPhase t (.crediting (credited r)) with page := page' } N area' spare := by
  obtain ⟨q, hq, rfl⟩ := mem_of_removeRecord h.holds hrem
  obtain ⟨front, back, rfl⟩ := List.append_of_mem hq
  obtain ⟨p', hrun, hholds⟩ := removeRecord_holds h.holds
  rw [hrem, Option.some.injEq, Prod.mk.injEq] at hrun
  obtain ⟨rfl, rfl⟩ := hrun
  have hcred := credited_le q
  have hb := h.bytes
  have hs := h.slots
  have hbytes := Runs.sum_update Phase.bytes s.phase t (.crediting (credited (removed q)))
  have hbusy := Runs.sum_update Phase.busy s.phase t (.crediting (credited (removed q)))
  rw [ht] at hbytes hbusy
  rw [Phase.bytes_idle, Phase.bytes_crediting] at hbytes
  rw [Phase.busy_idle, Phase.busy_crediting] at hbusy
  rw [size_append, size_cons] at hb
  rw [List.length_append, List.length_cons] at hs
  refine ⟨front ++ back, hholds, ?_, ?_, keyed_update h.keyed t trivial⟩
  · simp only [State.setPhase, size_append]
    omega
  · simp only [State.setPhase, List.length_append]
    omega

theorem Covered.credit (h : Covered s N area spare) {n : Nat} (ht : s.phase t = .crediting n) :
    s.entry.addFreeSpace n = ⟨s.entry.invalidSlotNum + 1, s.entry.freeSpace + n⟩ ∧
    Covered { s.setPhase t .idle with entry := s.entry.addFreeSpace n } N area spare := by
  obtain ⟨hf, hi⟩ := h.entry_lt
  have hb := h.bytes
  have hs := h.slots
  have hPAGE : PAGE_SIZE = 4096 := rfl
  have hslot : SLOT_SIZE = 5 := rfl
  have hbytes := Runs.sum_update Phase.bytes s.phase t .idle
  have hbusy := Runs.sum_update Phase.busy s.phase t .idle
  rw [ht] at hbytes hbusy
  rw [Phase.bytes_idle, Phase.bytes_crediting] at hbytes
  rw [Phase.busy_idle, Phase.busy_crediting] at hbusy
  rw [hslot] at hb
  have hadd : s.entry.addFreeSpace n = ⟨s.entry.invalidSlotNum + 1, s.entry.freeSpace + n⟩ :=
    FreeSpaceEntry.addFreeSpace_eq (by omega) (by omega)
  refine ⟨hadd, h.holds, ?_, ?_, keyed_update h.keyed t trivial⟩
  · simp only [State.setPhase, hslot, hadd]
    omega
  · simp only [State.setPhase, hadd]
    omega

/-- One step, whoever takes it. -/
theorem Covered.step (h : Covered s N area spare) {ev : Event τ} (hstep : Step s ev s') :
    ∃ N' area' spare', Covered s' N' area' spare' := by
  cases hstep with
  | reserve ht hkey hfits => exact ⟨N, area, h.reserve ht hkey hfits⟩
  | insert ht hins => exact h.insert ht hins
  | remove ht hrem =>
    obtain ⟨area', h'⟩ := h.remove ht hrem
    exact ⟨N, area', spare, h'⟩
  | credit ht => exact ⟨N, area, spare, (h.credit ht).2⟩

theorem reach_covered (h : Runs.Reach Init Step s) : ∃ N area spare, Covered s N area spare :=
  h.inv (fun _ => init_covered) fun _ _ _ ⟨_, _, _, hi⟩ hstep => hi.step hstep

/-- In every state of every run: the page has room for each record to be inserted, and
no counter of the entry wraps in a reservation or a credit. -/
theorem page_never_overcommitted (h : Runs.Reach Init Step s) :
    (∀ t record isBlob, s.phase t = .inserting record isBlob →
      Room s.page record.length ∧ ∃ i page', insertRecord s.page record isBlob = some (i, page')) ∧
    (∀ t key value isBlob s', Step s (.reserve t key value isBlob) s' →
      s'.entry.freeSpace + ((key ++ value).length + s.entry.slotCost) = s.entry.freeSpace ∧
      s'.entry.invalidSlotNum = s.entry.invalidSlotNum - 1) ∧
    ∀ t n s', s.phase t = .crediting n → Step s (.credit t) s' →
      s'.entry.freeSpace = s.entry.freeSpace + n ∧ s'.entry.invalidSlotNum = s.entry.invalidSlotNum + 1 := by
  obtain ⟨N, area, spare, hc⟩ := reach_covered h
  refine ⟨fun t record isBlob ht => ⟨?_, ?_⟩, fun t key value isBlob s' hstep => ?_, fun t n s' ht hstep => ?_⟩
  · have hroom := hc.room ht
    have hinv := hc.holds.invalidSlotNum
    have hend := hc.holds.freeSpaceEnd
    have hslot : SLOT_SIZE = 5 := rfl
    have hmin : MIN_FIXED_SIZE = 6 := rfl
    rw [Room, hc.holds.getSlotsNum, hslot, hmin]
    rw [slotAt_eq] at hroom
    -- the record reuses a free slot, or brings a slot with it
    unfold grow at hroom
    split at hroom
    · rw [if_pos (by omega)]
      omega
    · rw [if_neg (by omega)]
      omega
  · have hkey : RECORD_KEY_SIZE ≤ record.length := by
      have := hc.keyed t
      rwa [ht] at this
    obtain ⟨i, page', hrun, -⟩ := insertRecord_holds (b := isBlob) hc.holds hkey (hc.room ht)
    exact ⟨i, page', hrun⟩
  · obtain ⟨hf, hi⟩ := hc.entry_lt
    have hPAGE : PAGE_SIZE = 4096 := rfl
    cases hstep with
    | reserve ht hkey hfits =>
      obtain ⟨hle, hres⟩ := FreeSpaceEntry.reserve_eq hfits (by omega) (by omega)
      simp only [hres, and_true]
      exact Nat.sub_add_cancel hle
  · cases hstep with
    | credit ht' =>
      rw [ht, Phase.crediting.injEq] at ht'
      subst ht'
      simp [(hc.credit ht).1]

end

/-- Four threads and a new page. -/
def newPage : State (Fin 4) := ⟨init fun _ => 0, .empty, fun _ => .idle⟩

def aKey : List Byte := List.replicate RECORD_KEY_SIZE 1

theorem newPage_init : Init newPage :=
  ⟨⟨0, [], init_holds _⟩, (init_holds _).agrees_iff.2 (by decide), fun _ => rfl⟩

/-- A record is inserted and taken off again while another thread holds a reservation, and
before its bytes are credited a third thread reserves. -/
def overlapping : List (Event (Fin 4)) :=
  [.reserve 0 aKey [1, 2] false, .reserve 1 aKey [3] false, .insert 0, .remove 0 0, .reserve 2 aKey [4, 5, 6] true]

/-- There is room for the two records that are reserved, and neither the credit nor one more
reservation wraps. -/
theorem page_never_overcommitted_overlapping : ∃ s : State (Fin 4),
    (s.phase 0 = .crediting 26 ∧ s.phase 1 = .inserting (aKey ++ [3]) false ∧
    s.phase 2 = .inserting (aKey ++ [4, 5, 6]) true) ∧
    Room s.page 25 ∧ Room s.page 27 ∧
    (∀ s', Step s (.credit 0) s' →
      s'.entry.freeSpace = s.entry.freeSpace + 26 ∧ s'.entry.invalidSlotNum = s.entry.invalidSlotNum + 1) ∧
    ∀ s', Step s (.reserve 3 aKey [7] false) s' → s'.entry.freeSpace + (25 + s.entry.slotCost) = s.entry.freeSpace := by
  have hrun : (Runs.follow State.next (fun _ _ => true) overlapping newPage).any (fun s =>
      s.phase 0 = .crediting 26 ∧ s.phase 1 = .inserting (aKey ++ [3]) false ∧
        s.phase 2 = .inserting (aKey ++ [4, 5, 6]) true) = true := by
    decide +kernel
  obtain ⟨s, hs, hphase⟩ := (Option.any_eq_true _ _).1 hrun
  obtain ⟨h0, h1, h2⟩ := of_decide_eq_true hphase
  have hreach : Runs.Reach Init Step s :=
    Runs.reach_of_follow (fun s e s' _ hnext => show Step s e s' from State.next_step hnext) (.start newPage_init) hs
  obtain ⟨hroom, hreserve, hcredit⟩ := page_never_overcommitted hreach
  refine ⟨s, ⟨h0, h1, h2⟩, ?_, ?_, fun s' hstep => ?_, fun s' hstep => ?_⟩
  · exact (hroom 1 _ false h1).1
  · exact (hroom 2 _ true h2).1
  · exact hcredit 0 26 s' h0 hstep
  · exact (hreserve 3 _ _ _ s' hstep).1

end MisakiDB.PageThreads
