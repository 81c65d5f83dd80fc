import MisakiDB.Data.Records
/-!
# Runs of calls on the records

Insertions and removals are made one at a time, from a new database. `live` is what
the calls said: the key and the value under each record id. A value of 4062 to 4085
bytes is stored in line, and its record does not fit a page (`Fits`). The other
insertions place their records well (`records_kept`), and the entries of the map
agree with the pages until a blob is removed (`books_agree`).
-/

namespace MisakiDB.DataAccessor

open Prog PageStore DataFileManager

/-! ## The system -/

inductive Call
  | insertRecord (key value : List Byte) (id : RecordIDType)
  | removeRecord (id : RecordIDType)

structure RecordState where
  store : DataStore
  live : RecordIDType → Option (List Byte × List Byte)

namespace RecordState

/-- No chain is longer than the number of blob pages. -/
def bound (s : RecordState) : Nat :=
  match s.store.page (blobKey 0) with
  | some (.blobHeader h) => h.nextPageID
  | _ => 0

def Init (s : RecordState) : Prop := s.store = newDataStore ∧ s.live = fun _ => none

/-- A call, with the id it returned. -/
def Step (s : RecordState) (c : Call) (s' : RecordState) : Prop :=
  match c with
  | .insertRecord key value id => run exec (DataAccessor.insertRecord key value) s.store = some (id, s'.store) ∧
      s'.live = Function.update s.live id (some (key, value))
  | .removeRecord id => run exec (DataAccessor.removeRecord s.bound id) s.store = some ((), s'.store) ∧
      s'.live = Function.update s.live id none

end RecordState

open RecordState Runs

/-! ## The invariant -/

/-- The blobs have ids of their own, none later than the last one given out. -/
structure BlobIDs (s : DataStore) (recs : List Held) : Prop where
  le : ∀ h ∈ recs, ∀ c, h.chain = some c → c.blobID ≤ s.member.nextBlobID
  nodup : (recs.filterMap fun h => h.chain.map Chain.blobID).Nodup

/-- The store holds the live records. -/
structure RunInv (s : RecordState) (recs : List Held) (book : Nat → FreeSpaceEntry)
    (shelf : Nat → Nat × List DataFilePage.Rec)
    (lost : Nat → Nat) (free : List Nat) (N M B : Nat) : Prop where
  inv : Inv s.store recs book shelf lost free N M B
  ids : BlobIDs s.store recs
  live : s.live = toMap recs
  blob : ∀ h ∈ recs, h.chain.isSome ↔ DataFilePage.MAX_RECORD_SIZE < h.value.length

variable {s s' : RecordState} {recs : List Held} {book : Nat → FreeSpaceEntry} {shelf : Nat → Nat × List DataFilePage.Rec}
  {lost : Nat → Nat} {free : List Nat} {N M B : Nat}

theorem newDataStore_inv : Inv newDataStore [] (fun _ => .empty) (fun _ => (0, [])) (fun _ => 0) [] 1 1 1 :=
  ⟨fun _ => rfl, ⟨newDataStore_map, newDataStore_data, fun _ _ => booked_empty, fun _ _ => ⟨rfl, rfl⟩, le_rfl⟩,
    newDataStore_blobs,
    List.nodup_nil, fun _ => rfl, by simp, by simp, by simp⟩

theorem init_inv (h : Init s) : RunInv s [] (fun _ => .empty) (fun _ => (0, [])) (fun _ => 0) [] 1 1 1 := by
  obtain ⟨hs, hl⟩ := h
  refine ⟨by rw [hs]; exact newDataStore_inv, ⟨by simp, List.nodup_nil⟩, ?_, by simp⟩
  rw [hl]
  rfl

theorem RunInv.bound_eq (h : RunInv s recs book shelf lost free N M B) : s.bound = B := by
  simp [RecordState.bound, h.inv.blobs.header]

/-- An insertion adds the record. -/
theorem RunInv.insert (h : RunInv s recs book shelf lost free N M B) {key value : List Byte} {id : RecordIDType}
    (hfits : Fits value) (hstep : RecordState.Step s (.insertRecord key value id) s') : ∃ chain free' N' M' B',
    (book id.pageID).fits (Item.bytes ⟨key, value, chain⟩).length = true ∧
    RunInv s' (⟨⟨key, value, chain⟩, id⟩ :: recs)
      (Function.update book id.pageID ((book id.pageID).reserve (Item.bytes ⟨key, value, chain⟩).length))
      (Function.update shelf id.pageID (DataFilePage.grow (shelf id.pageID).1 (shelf id.pageID).2,
        (Held.mk ⟨key, value, chain⟩ id).toRec :: (shelf id.pageID).2)) lost free' N' M' B' := by
  obtain ⟨hrun, hlive⟩ := hstep
  obtain ⟨chain, free', N', M', B', hf, hblob, hsome, hnone, hinv⟩ := insertRecord_spec h.inv hfits _ _ hrun
  refine ⟨chain, free', N', M', B', hf, hinv, ?_, ?_, List.forall_mem_cons.2 ⟨hblob, h.blob⟩⟩
  · rcases chain with _ | c
    · have hm := hnone rfl
      refine ⟨List.forall_mem_cons.2 ⟨(fun c hc => by cases hc), fun x hx c hc => ?_⟩, h.ids.nodup⟩
      rw [hm]
      exact h.ids.le x hx c hc
    · obtain ⟨hid, hm⟩ := hsome c rfl
      refine ⟨List.forall_mem_cons.2 ⟨?_, fun x hx c' hc' => ?_⟩, ?_⟩
      · rintro c' ⟨rfl⟩
        rw [hm, hid]
      · rw [hm]
        exact (h.ids.le x hx c' hc').trans (Nat.le_succ _)
      · refine List.nodup_cons.2 ⟨fun hmem => ?_, h.ids.nodup⟩
        obtain ⟨x, hx, hc'⟩ := List.mem_filterMap.1 hmem
        obtain ⟨c', hc', heq⟩ := Option.map_eq_some_iff.1 hc'
        have hle := h.ids.le x hx c' hc'
        rw [heq, hid] at hle
        exact absurd hle (Nat.not_succ_le_self _)
  · rw [toMap_cons, hlive, h.live]

/-- A removal is of a live record, which goes. -/
theorem RunInv.remove (h : RunInv s recs book shelf lost free N M B) {id : RecordIDType}
    (hstep : RecordState.Step s (.removeRecord id) s') : ∃ front x back free', recs = front ++ x :: back ∧ x.id = id ∧
    s.live id = some (x.key, x.value) ∧ RunInv s' (front ++ back)
    (Function.update book id.pageID ((book id.pageID).addFreeSpace (credit x)))
      (Function.update shelf id.pageID ((shelf id.pageID).1, areaOf (front ++ back) id.pageID))
      (Function.update lost id.pageID (lost id.pageID + (x.bytes.length - credit x))) free' N M B := by
  obtain ⟨hrun, hlive⟩ := hstep
  rcases hmap : toMap recs id with _ | ⟨key, value⟩
  · rw [removeRecord_none h.inv _ (toMap_eq_none hmap)] at hrun
    cases hrun
  obtain ⟨front, x, back, rfl, rfl, rfl, rfl⟩ := toMap_eq_some hmap
  obtain ⟨hm, free', hinv⟩ := wp_run (removeRecord_spec h.inv h.bound_eq.ge) hrun
  have hsub : ∀ y ∈ front ++ back, y ∈ front ++ x :: back := fun y hy => by
    simp only [List.mem_append, List.mem_cons] at hy ⊢
    tauto
  refine ⟨front, x, back, free', rfl, rfl, by rw [h.live, hmap], hinv, ⟨fun y hy c hc => ?_, ?_⟩, ?_,
    fun y hy => h.blob y (hsub y hy)⟩
  · rw [hm]
    exact h.ids.le y (hsub y hy) c hc
  · have hnd := h.ids.nodup
    rw [List.filterMap_append] at hnd ⊢
    exact hnd.sublist (List.Sublist.append_left ((List.sublist_cons_self _ _).filterMap _) _)
  · rw [hlive, h.live, toMap_remove h.inv.nodup]

/-! ## Where a record lies -/

/-- A data page, which is empty if it is not there yet. -/
def pageOf (s : DataStore) (p : Nat) : RawPage :=
  (pageAs s (dataKey p) FilePage.asData).getD (DataFilePage.init fun _ => 0)

/-- The entry of a data page, which is empty if the map does not reach the page yet. -/
def entryOf (s : DataStore) (p : Nat) : FreeSpaceEntry :=
  match pageAs s (mapKey (convertToMapPageID p)) FilePage.asMap with
  | some m => m (convertToMapIndex p)
  | none => .empty

/-- The record lies in what was the free area of the page, above the slot array and
below every other record. -/
structure Placed (p p' : RawPage) (slot : Nat) (record : List Byte) : Prop where
  ends : DataFilePage.getRecordOffset p' slot + record.length = DataFilePage.m_freeSpaceEndOffset p
  above : DataFilePage.slotAt (DataFilePage.getSlotsNum p').toNat ≤ DataFilePage.getRecordOffset p' slot
  bytes : read p' (DataFilePage.getRecordOffset p' slot).toNat record.length = record
  below : ∀ i < (DataFilePage.getSlotsNum p').toNat, i ≠ slot →
    DataFilePage.getRecordOffset p' i ≠ DataFilePage.INVALID_OFFSET →
    DataFilePage.getRecordOffset p' slot + record.length ≤ DataFilePage.getRecordOffset p' i

/-- The entry paid for the record and its slot, and had what it paid. -/
structure Charged (e e' : FreeSpaceEntry) (recordSize : Nat) : Prop where
  freeSpace : e'.freeSpace + (recordSize + e.slotCost) = e.freeSpace
  invalidSlotNum : e'.invalidSlotNum + (if 0 < e.invalidSlotNum then 1 else 0) = e.invalidSlotNum

theorem placed_of_holds {p p' : RawPage} {n slot : Nat} {area : List DataFilePage.Rec} {record : List Byte} {b : Bool}
    (h : DataFilePage.Holds p n area)
    (h' : DataFilePage.Holds p' (DataFilePage.grow n area) (⟨slot, record, b⟩ :: area)) : Placed p p' slot record := by
  have hroom := h'.room
  have hend := h.freeSpaceEnd
  have hsize := DataFilePage.size_cons ⟨slot, record, b⟩ area
  obtain ⟨⟨hoff, -, -, hbytes⟩, hrest⟩ := h'.tiles
  have hN := h'.getSlotsNum
  simp only at hsize hoff hbytes hrest
  refine ⟨by omega, by rw [hN, Int.toNat_natCast]; omega, by rw [hoff, Int.toNat_natCast, hbytes],
    fun i hi hne hvalid => ?_⟩
  rw [hN, Int.toNat_natCast] at hi
  have hmem : i ∈ DataFilePage.slots (⟨slot, record, b⟩ :: area) := by
    by_contra hfree
    exact hvalid (h'.free i hi hfree)
  obtain ⟨r, hr, rfl⟩ := DataFilePage.mem_slots.1 hmem
  rcases List.mem_cons.1 hr with rfl | hr
  · exact absurd rfl hne
  · obtain ⟨u, hu, -, hru, -⟩ := hrest.mem hr
    rw [hoff, hru]
    omega

theorem charged_of_fits {e : FreeSpaceEntry} {n lost slotsNum : Nat} {area : List DataFilePage.Rec}
    (hb : Booked e (slotsNum, area) lost) (hfits : e.fits n = true) : Charged e (e.reserve n) n := by
  have hsmall := hb.small
  obtain ⟨hle, heq⟩ := FreeSpaceEntry.reserve_eq hfits (by omega) (by omega)
  rw [heq]
  refine ⟨Nat.sub_add_cancel hle, ?_⟩
  simp only
  split <;> omega

theorem Inv.entryOf_eq {t : DataStore} (h : Inv t recs book shelf lost free N M B) {p : Nat} (hp : 1 ≤ p) :
    entryOf t p = book p := by
  unfold entryOf
  by_cases hM : p ≤ covered M
  · have hpage := h.pages.map.page _ (convertToMapPageID_pos p) (convertToMapPageID_lt hp hM)
    simp [pageAs, hpage, FilePage.asMap, convertToDataPageID_convertTo hp]
  · have hge : M ≤ convertToMapPageID p := by
      by_contra hlt
      apply hM
      rw [← convertToDataPageID_convertTo hp]
      exact (convertToDataPageID_mem (convertToMapPageID_pos p) _).2.trans (covered_mono (Nat.not_le.1 hlt))
    rw [(h.pages.beyond p (by have := h.pages.covers; omega)).1]
    simp [pageAs, h.pages.map.fresh _ hge]

theorem Inv.pageOf_holds {t : DataStore} (h : Inv t recs book shelf lost free N M B) {p : Nat} (hp : 1 ≤ p) :
    DataFilePage.Holds (pageOf t p) (shelf p).1 (shelf p).2 := by
  unfold pageOf
  by_cases hN : p < N
  · obtain ⟨raw, hraw, hholds⟩ := h.pages.data.page p hp hN
    unfold Shelved at hholds
    simpa [pageAs, hraw, FilePage.asData] using hholds
  · rw [(h.pages.beyond p (Nat.not_lt.1 hN)).2]
    simpa [pageAs, h.pages.data.fresh p (Nat.not_lt.1 hN)] using DataFilePage.init_holds _

/-! ## Records are kept -/

/-- The calls whose records fit a page. -/
def FitsCall (_ : RecordState) : Call → Prop
  | .insertRecord _ value _ => Fits value
  | .removeRecord _ => True

theorem reach_inv (h : Reach Init (Restrict RecordState.Step FitsCall) s) : ∃ recs book shelf lost free N M B,
    RunInv s recs book shelf lost free N M B := by
  apply Reach.inv (I := fun s => ∃ recs book shelf lost free N M B, RunInv s recs book shelf lost free N M B)
    (fun s hs => ⟨_, _, _, _, _, _, _, _, init_inv hs⟩) ?_ h
  rintro s c s' ⟨recs, book, shelf, lost, free, N, M, B, hi⟩ ⟨hok, hstep⟩
  cases c with
  | insertRecord key value id =>
    obtain ⟨_, _, _, _, _, -, hi'⟩ := hi.insert hok hstep
    exact ⟨_, _, _, _, _, _, _, _, hi'⟩
  | removeRecord id =>
    obtain ⟨_, _, _, _, -, -, -, hi'⟩ := hi.remove hstep
    exact ⟨_, _, _, _, _, _, _, _, hi'⟩

theorem RunInv.read (hi : RunInv s recs book shelf lost free N M B) {id : RecordIDType} {key value : List Byte}
    (hlive : s.live id = some (key, value)) :
    ∃ t, run exec (getRecordValue s.bound key id) s.store = some (some value, t) ∧ t.page = s.store.page := by
  rw [hi.live] at hlive
  obtain ⟨front, x, back, rfl, rfl, rfl, rfl⟩ := toMap_eq_some hlive
  obtain ⟨r, t, hrun, rfl, hpage, -⟩ := getRecordValue_spec hi.inv (h := x) (by simp) hi.bound_eq.ge
  exact ⟨t, hrun, hpage⟩

/-- What the insertion of a record does to its page and to the page's entry. -/
theorem RunInv.placed (hi : RunInv s recs book shelf lost free N M B) {key value : List Byte} {id : RecordIDType}
    (hfits : Fits value) (hstep : RecordState.Step s (.insertRecord key value id) s') : s.live id = none ∧
    ∃ payload, (value.length ≤ DataFilePage.MAX_RECORD_SIZE → payload = value) ∧
      (DataFilePage.MAX_RECORD_SIZE < value.length → payload.length = 4) ∧
      Placed (pageOf s.store id.pageID) (pageOf s'.store id.pageID) id.slotArrayIndex (key ++ payload) ∧
      Charged (entryOf s.store id.pageID) (entryOf s'.store id.pageID) (key ++ payload).length := by
  obtain ⟨chain, free', N', M', B', hf, hi'⟩ := hi.insert hfits hstep
  have hid : 1 ≤ id.pageID := hi'.inv.pos _ List.mem_cons_self
  have hblob : chain.isSome ↔ DataFilePage.MAX_RECORD_SIZE < value.length := hi'.blob _ List.mem_cons_self
  refine ⟨?_, (Item.mk key value chain).payload, fun hle => ?_, fun hlt => ?_, ?_, ?_⟩
  · have hnd := hi'.inv.nodup
    rw [List.map_cons, List.nodup_cons] at hnd
    rw [hi.live, toMap, Option.map_eq_none_iff, List.find?_eq_none]
    intro x hx
    have hne : x.id ≠ id := fun heq => hnd.1 (List.mem_map.2 ⟨x, hx, heq⟩)
    simpa using hne
  · cases chain with
    | none => rfl
    | some c => exact absurd (hblob.1 rfl) (Nat.not_lt.2 hle)
  · cases chain with
    | none => exact absurd (hblob.2 hlt) (by simp)
    | some c => exact leBytes_length 4 _
  · have hbefore := hi.inv.pageOf_holds hid
    have hafter := hi'.inv.pageOf_holds hid
    simp only [Function.update_self] at hafter
    exact placed_of_holds hbefore hafter
  · rw [hi.inv.entryOf_eq hid, hi'.inv.entryOf_eq hid, Function.update_self]
    exact charged_of_fits (hi.inv.pages.booked _ hid) hf

/-- Every live record reads as it was inserted. An insertion returns while page ids
last; it takes a new id, puts the record into free space and charges for that. -/
theorem records_kept (h : Reach Init (Restrict RecordState.Step FitsCall) s) :
    (∀ id key value, s.live id = some (key, value) →
      ∃ t, run exec (getRecordValue s.bound key id) s.store = some (some value, t) ∧ t.page = s.store.page) ∧
    (∀ key value id s', Fits value → RecordState.Step s (.insertRecord key value id) s' → s.live id = none ∧
      ∃ payload, (value.length ≤ DataFilePage.MAX_RECORD_SIZE → payload = value) ∧
        (DataFilePage.MAX_RECORD_SIZE < value.length → payload.length = 4) ∧
        Placed (pageOf s.store id.pageID) (pageOf s'.store id.pageID) id.slotArrayIndex (key ++ payload) ∧
        Charged (entryOf s.store id.pageID) (entryOf s'.store id.pageID) (key ++ payload).length) ∧
    ∀ key value, key.length = RECORD_KEY_SIZE → Fits value → s.bound < 2 ^ 32 - 1 →
      ∃ id s', RecordState.Step s (.insertRecord key value id) s' := by
  obtain ⟨recs, book, shelf, lost, free, N, M, B, hi⟩ := reach_inv h
  refine ⟨fun id key value => hi.read, fun key value id s' => hi.placed, fun key value hkey hfits hB => ?_⟩
  obtain ⟨⟨id, t⟩, hrun⟩ := insertRecord_returns hi.inv hkey hfits fun _ => hi.bound_eq ▸ hB
  exact ⟨id, ⟨t, Function.update s.live id (some (key, value))⟩, hrun, rfl⟩

def newState : RecordState := ⟨newDataStore, fun _ => none⟩

theorem newState_reach {ok : RecordState → Call → Prop} : Reach Init (Restrict RecordState.Step ok) newState :=
  .start ⟨rfl, rfl⟩

/-- A record of a new database can be read. -/
theorem records_kept_one : ∃ id s' t, RecordState.Step newState (.insertRecord someKey [7] id) s' ∧
    run exec (getRecordValue s'.bound someKey id) s'.store = some (some [7], t) := by
  obtain ⟨id, s', hstep⟩ := (records_kept newState_reach).2.2 someKey [7] rfl (by decide) (by decide)
  have hok : FitsCall newState (.insertRecord someKey [7] id) := show Fits [7] by decide
  have hreach : Reach Init (Restrict RecordState.Step FitsCall) s' := .next newState_reach ⟨hok, hstep⟩
  have hlive : s'.live id = some (someKey, [7]) := by rw [hstep.2, Function.update_self]
  obtain ⟨t, hrun, -⟩ := (records_kept hreach).1 id someKey [7] hlive
  exact ⟨id, s', t, hstep, hrun⟩

/-- A value of 4062 bytes is inserted. Its entry, the number of slots, the offset of its
record, and whether it can be read. -/
def insertLong : Option (RecordIDType × DataStore × FreeSpaceEntry × Int × Int × Bool) := do
  let (id, s) ← run exec (insertRecord someKey (List.replicate 4062 97)) newDataStore
  some (id, s, entryOf s 1, DataFilePage.getSlotsNum (pageOf s 1), DataFilePage.getRecordOffset (pageOf s 1) 0,
    (run exec (getRecordValue 9 someKey id) s).isSome)

/-- A record of one byte more than a page has room for overlaps its slot, and is taken
for a blob when it is read. The entry wraps around. -/
theorem long_value_overlaps : ∃ id s', RecordState.Step newState (.insertRecord someKey (List.replicate 4062 97) id) s' ∧
    ¬ Placed (pageOf newState.store 1) (pageOf s'.store 1) 0 (someKey ++ List.replicate 4062 97) ∧
    (entryOf newState.store 1).freeSpace < (entryOf s'.store 1).freeSpace ∧
    run exec (getRecordValue 9 someKey id) s'.store = none := by
  have heval : (insertLong.map fun r => r.2.2) = some (⟨0, 65535⟩, 1, 10, false) := by decide +kernel
  simp only [insertLong, Option.bind_eq_bind, Option.map_eq_some_iff, Option.bind_eq_some_iff,
    Option.some.injEq] at heval
  obtain ⟨_, ⟨⟨id, t⟩, hrun, rfl⟩, heval⟩ := heval
  simp only [Prod.mk.injEq, Option.isSome_eq_false_iff, Option.isNone_iff_eq_none] at heval
  obtain ⟨hentry, hslots, hoff, hread⟩ := heval
  refine ⟨id, ⟨t, _⟩, ⟨hrun, rfl⟩, fun hp => ?_, ?_, hread⟩
  · have habove := hp.above
    rw [hslots, hoff] at habove
    exact absurd habove (by decide)
  · rw [hentry]
    decide

/-! ## The map agrees with the pages -/

/-- The calls that keep the map exact: no blob is removed. -/
def KeepsBooks (s : RecordState) : Call → Prop
  | .insertRecord _ value _ => Fits value
  | .removeRecord id => ∀ key value, s.live id = some (key, value) → value.length ≤ DataFilePage.MAX_RECORD_SIZE

/-- Nothing is lost as long as no blob is removed. -/
theorem reach_books (h : Reach Init (Restrict RecordState.Step KeepsBooks) s) : ∃ recs book shelf free N M B,
    RunInv s recs book shelf (fun _ => 0) free N M B := by
  apply Reach.inv (I := fun s => ∃ recs book shelf free N M B, RunInv s recs book shelf (fun _ => 0) free N M B)
    (fun s hs => ⟨_, _, _, _, _, _, _, init_inv hs⟩) ?_ h
  rintro s c s' ⟨recs, book, shelf, free, N, M, B, hi⟩ ⟨hok, hstep⟩
  cases c with
  | insertRecord key value id =>
    obtain ⟨_, _, _, _, _, -, hi'⟩ := hi.insert hok hstep
    exact ⟨_, _, _, _, _, _, _, hi'⟩
  | removeRecord id =>
    obtain ⟨front, x, back, free', rfl, rfl, hlive, hi'⟩ := hi.remove hstep
    have hchain : x.chain.isSome = false := by
      have hblob := hi.blob x (by simp)
      by_contra hsome
      rw [Bool.not_eq_false] at hsome
      exact absurd (hblob.1 hsome) (Nat.not_lt.2 (hok _ _ hlive))
    have hcredit : x.bytes.length - credit x = 0 := by simp [credit, hchain]
    have hlost : Function.update (fun _ => 0) x.id.pageID (0 + 0) = fun _ : Nat => 0 :=
      Function.update_eq_self x.id.pageID _
    rw [hcredit, hlost] at hi'
    exact ⟨_, _, _, _, _, _, _, hi'⟩

/-- Until a blob is removed, the entry of every page agrees with the page. -/
theorem books_agree (h : Reach Init (Restrict RecordState.Step KeepsBooks) s) {p : Nat} (hp : 1 ≤ p) {raw : RawPage}
    (hraw : pageAs s.store (dataKey p) FilePage.asData = some raw) : Agrees raw (entryOf s.store p) := by
  obtain ⟨recs, book, shelf, free, N, M, B, hi⟩ := reach_books h
  have hpage : pageOf s.store p = raw := by simp [pageOf, hraw]
  have hholds := hi.inv.pageOf_holds hp
  rw [hpage] at hholds
  have hb : Booked (book p) ((shelf p).1, (shelf p).2) 0 := hi.inv.pages.booked p hp
  rw [hi.inv.entryOf_eq hp, hholds.agrees_iff]
  exact ⟨hb.freeSpace, hb.invalidSlotNum⟩

/-- The entry of the page of the first record. -/
theorem books_agree_one : ∃ id s' raw, RecordState.Step newState (.insertRecord someKey [7] id) s' ∧
    Agrees raw (entryOf s'.store 1) := by
  have heval : ((run exec (insertRecord someKey [7]) newDataStore).map fun r =>
      (pageAs r.2 (dataKey 1) FilePage.asData).isSome) = some true := by decide +kernel
  obtain ⟨⟨id, t⟩, hrun, hpage⟩ := Option.map_eq_some_iff.1 heval
  obtain ⟨raw, hraw⟩ := Option.isSome_iff_exists.1 hpage
  have hok : KeepsBooks newState (.insertRecord someKey [7] id) := show Fits [7] by decide
  have hstep : RecordState.Step newState (.insertRecord someKey [7] id) ⟨t,
    Function.update newState.live id (some (someKey, [7]))⟩ :=
    ⟨hrun, rfl⟩
  exact ⟨id, _, raw, hstep, books_agree (.next newState_reach ⟨hok, hstep⟩) le_rfl hraw⟩

/-- A blob is inserted and removed. The entry and the page. -/
def insertRemoveBlob : Option (RecordIDType × DataStore × DataStore × FreeSpaceEntry × Int × Int) := do
  let (id, s) ← run exec (insertRecord someKey (List.replicate 4086 97)) newDataStore
  let (_, s') ← run exec (removeRecord 3 id) s
  some (id, s, s', entryOf s' 1, DataFilePage.m_freeSpaceEndOffset (pageOf s' 1),
    DataFilePage.getSlotsNum (pageOf s' 1))

/-- A removed blob gives back the bytes of its page id, not those of its record. -/
theorem removed_blob_loses_space : ∃ id s s',
    RecordState.Step newState (.insertRecord someKey (List.replicate 4086 97) id) s ∧
    RecordState.Step s (.removeRecord id) s' ∧ ¬ Agrees (pageOf s'.store 1) (entryOf s'.store 1) := by
  have heval : (insertRemoveBlob.map fun r => (r.2.2.2, (RecordState.bound ⟨r.2.1, fun _ => none⟩))) =
      some ((⟨1, 4061⟩, 4096, 1), 3) := by decide +kernel
  simp only [insertRemoveBlob, Option.bind_eq_bind, Option.map_eq_some_iff, Option.bind_eq_some_iff,
    Option.some.injEq] at heval
  obtain ⟨_, ⟨⟨id, s⟩, hinsert, ⟨_, s'⟩, hremove, rfl⟩, heval⟩ := heval
  simp only [Prod.mk.injEq] at heval
  obtain ⟨⟨hentry, hend, hslots⟩, hbound⟩ := heval
  refine ⟨id, ⟨s, Function.update newState.live id (some (someKey, List.replicate 4086 97))⟩,
    ⟨s', Function.update (Function.update newState.live id (some (someKey, List.replicate 4086 97))) id none⟩,
    ⟨hinsert, rfl⟩, ⟨?_, rfl⟩, fun hagree => ?_⟩
  · have hb : RecordState.bound ⟨s, Function.update newState.live id (some (someKey, List.replicate 4086 97))⟩ = 3 :=
      hbound
    rw [hb]
    exact hremove
  · have hfree := hagree.freeSpace
    rw [hentry, hend, hslots] at hfree
    exact absurd hfree (by decide)

/-! ## The blob file -/

/-- Calls on blob records. -/
def BlobCall (_ : RecordState) : Call → Prop
  | .insertRecord _ value _ => DataFilePage.MAX_RECORD_SIZE < value.length
  | .removeRecord _ => True

/-- Every page that was ever handed out is on the free list, once, or at one place in
the chain of one live record. -/
structure BlobFile (s : RecordState) (chains : List (RecordIDType × Chain)) (free : List Nat) (N : Nat) : Prop where
  header : s.store.page (blobKey 0) = some (.blobHeader ⟨N, free.head?⟩)
  fresh : ∀ x, N ≤ x → s.store.page (blobKey x) = none
  ids : (chains.map Prod.fst).Nodup
  blobIDs : (chains.map fun c => c.2.blobID).Nodup
  live : ∀ id key value, s.live id = some (key, value) ↔ ∃ c, (id, c) ∈ chains ∧ c.key = key ∧ c.value = value
  once : ((chains.flatMap fun c => c.2.pages) ++ free).Perm (List.range' 1 (N - 1))
  stored : ∀ c ∈ chains, c.2.Stored s.store true
  linked : Linked s.store free
  isFree : ∀ x, 1 ≤ x → x < N → ∃ b, s.store.page (blobKey x) = some (.blob b) ∧ (b.isFreePage = true ↔ x ∈ free)

theorem reach_blobs (h : Reach Init (Restrict RecordState.Step BlobCall) s) : ∃ recs book shelf lost free N M B,
    RunInv s recs book shelf lost free N M B ∧ ∀ x ∈ recs, DataFilePage.MAX_RECORD_SIZE < x.value.length := by
  apply Reach.inv (I := fun s => ∃ recs book shelf lost free N M B, RunInv s recs book shelf lost free N M B ∧
    ∀ x ∈ recs, DataFilePage.MAX_RECORD_SIZE < x.value.length)
    (fun s hs => ⟨_, _, _, _, _, _, _, _, init_inv hs, by simp⟩) ?_ h
  rintro s c s' ⟨recs, book, shelf, lost, free, N, M, B, hi, hall⟩ ⟨hok, hstep⟩
  cases c with
  | insertRecord key value id =>
    obtain ⟨_, _, _, _, _, -, hi'⟩ := hi.insert (.inr hok) hstep
    exact ⟨_, _, _, _, _, _, _, _, hi', List.forall_mem_cons.2 ⟨hok, hall⟩⟩
  | removeRecord id =>
    obtain ⟨front, x, back, _, rfl, -, -, hi'⟩ := hi.remove hstep
    refine ⟨_, _, _, _, _, _, _, _, hi', fun y hy => hall y ?_⟩
    simp only [List.mem_append, List.mem_cons] at hy ⊢
    tauto

/-- The chains of the records. -/
def chainsOf (recs : List Held) : List (RecordIDType × Chain) := recs.filterMap fun h => h.chain.map fun c => (h.id, c)

theorem mem_chainsOf {recs : List Held} {id : RecordIDType} {c : Chain} :
    (id, c) ∈ chainsOf recs ↔ ∃ h ∈ recs, h.chain = some c ∧ h.id = id := by
  simp only [chainsOf, List.mem_filterMap, Option.map_eq_some_iff, Prod.mk.injEq]
  constructor
  · rintro ⟨h, hh, c', hc, rfl, rfl⟩
    exact ⟨h, hh, hc, rfl⟩
  · rintro ⟨h, hh, hc, rfl⟩
    exact ⟨h, hh, c, hc, rfl, rfl⟩

theorem chainsOf_ids (recs : List Held) : ((chainsOf recs).map Prod.fst).Sublist (recs.map Held.id) := by
  induction recs with
  | nil => exact List.Sublist.slnil
  | cons h recs ih =>
    rcases hc : h.chain with _ | c
    · simpa [chainsOf, hc] using ih.cons h.id
    · simpa [chainsOf, hc] using ih.cons_cons h.id

/-- The pages of the chains are those of the blobs, in the same order. -/
theorem chainsOf_pages (recs : List Held) : (chainsOf recs).flatMap (fun c => c.2.pages) = blobPages recs := by
  induction recs with
  | nil => rfl
  | cons h recs ih =>
    rw [blobPages_cons, ← ih]
    rcases hc : h.chain with _ | c
    · simp [chainsOf, Item.blobPages, hc]
    · simp [chainsOf, Item.blobPages, hc]

theorem RunInv.blobFile (hi : RunInv s recs book shelf lost free N M B)
    (hall : ∀ x ∈ recs, DataFilePage.MAX_RECORD_SIZE < x.value.length) : BlobFile s (chainsOf recs) free B := by
  have hchain : ∀ x ∈ recs, ∃ c, x.chain = some c :=
    fun x hx => Option.isSome_iff_exists.1 ((hi.blob x hx).2 (hall x hx))
  refine ⟨hi.inv.blobs.header, hi.inv.blobs.fresh, ?_, ?_, ?_, ?_, ?_, hi.inv.blobs.linked, ?_⟩
  · exact hi.inv.nodup.sublist (chainsOf_ids recs)
  · have hmap : (chainsOf recs).map (fun c => c.2.blobID) = recs.filterMap fun h => h.chain.map Chain.blobID := by
      rw [chainsOf, List.map_filterMap]
      congr 1
      funext h
      cases h.chain <;> rfl
    rw [hmap]
    exact hi.ids.nodup
  · intro id key value
    rw [hi.live, toMap_iff hi.inv.nodup]
    constructor
    · rintro ⟨h, hh, rfl, rfl, rfl⟩
      obtain ⟨c, hc⟩ := hchain h hh
      obtain ⟨hk, hv, -, -⟩ := hi.inv.stored h hh c hc
      exact ⟨c, mem_chainsOf.2 ⟨h, hh, hc, rfl⟩, hk, hv⟩
    · rintro ⟨c, hmem, rfl, rfl⟩
      obtain ⟨h, hh, hc, rfl⟩ := mem_chainsOf.1 hmem
      obtain ⟨hk, hv, -, -⟩ := hi.inv.stored h hh c hc
      exact ⟨h, hh, rfl, hk.symm, hv.symm⟩
  · rw [chainsOf_pages]
    exact hi.inv.blobs.perm
  · rintro ⟨id, c⟩ hmem
    obtain ⟨h, hh, hc, rfl⟩ := mem_chainsOf.1 hmem
    exact (hi.inv.stored h hh c hc).2.2.2
  · exact fun x h1 h2 => hi.inv.blobs.isFreePage_iff h1 h2

/-- In every state that calls on blob records reach, the blob file is as it should be,
and the calls return: an insertion while page ids last, a removal of a live record. -/
theorem blobs_partition (h : Reach Init (Restrict RecordState.Step BlobCall) s) :
    (∃ chains free N, BlobFile s chains free N ∧ ∀ key value, key.length = RECORD_KEY_SIZE →
      DataFilePage.MAX_RECORD_SIZE < value.length → N < 2 ^ 32 - 1 →
      ∃ id s', RecordState.Step s (.insertRecord key value id) s') ∧
    ∀ id, s.live id ≠ none → ∃ s', RecordState.Step s (.removeRecord id) s' := by
  obtain ⟨recs, book, shelf, lost, free, N, M, B, hi, hall⟩ := reach_blobs h
  refine ⟨⟨chainsOf recs, free, B, hi.blobFile hall, fun key value hkey hvalue hB => ?_⟩, fun id hid => ?_⟩
  · obtain ⟨⟨id, t⟩, hrun⟩ := insertRecord_returns hi.inv hkey (.inr hvalue) fun _ => hB
    exact ⟨id, ⟨t, Function.update s.live id (some (key, value))⟩, hrun, rfl⟩
  · obtain ⟨⟨key, value⟩, hlive⟩ := Option.ne_none_iff_exists'.1 hid
    rw [hi.live] at hlive
    obtain ⟨front, x, back, rfl, rfl, -, -⟩ := toMap_eq_some hlive
    obtain ⟨r, t, hrun, -⟩ := removeRecord_spec hi.inv hi.bound_eq.ge
    exact ⟨⟨t, Function.update s.live x.id none⟩, hrun, rfl⟩

/-- A blob of two pages. -/
theorem blobs_partition_one : ∃ id s' chains free N,
    RecordState.Step newState (.insertRecord someKey (List.replicate 4086 97) id) s' ∧ BlobFile s' chains free N := by
  have hrun : (run exec (insertRecord someKey (List.replicate 4086 97)) newDataStore).isSome = true := by decide +kernel
  obtain ⟨⟨id, t⟩, hrun⟩ := Option.isSome_iff_exists.1 hrun
  have hok : BlobCall newState (.insertRecord someKey (List.replicate 4086 97) id) := by
    show DataFilePage.MAX_RECORD_SIZE < (List.replicate 4086 (97 : Byte)).length
    rw [List.length_replicate]
    decide
  have hstep : RecordState.Step newState (.insertRecord someKey (List.replicate 4086 97) id)
    ⟨t, Function.update newState.live id (some (someKey, List.replicate 4086 97))⟩ := ⟨hrun, rfl⟩
  obtain ⟨⟨chains, free, N, hfile, -⟩, -⟩ := blobs_partition (.next newState_reach ⟨hok, hstep⟩)
  exact ⟨id, _, chains, free, N, hstep, hfile⟩

end MisakiDB.DataAccessor
