import MisakiDB.Data.FreeSpace
import MisakiDB.Lib.Runs
import Mathlib.Order.Bounds.Basic
/-!
# The map over a whole run

Reservations and credits come one at a time. What a page's entry lacks of an empty
page's is what was reserved on the page and not returned, and its slots (`Tally`), so
that no entry wraps; and every reservation goes to the first entry that fits:
`first_fit`.
-/

namespace MisakiDB.FirstFit

open Prog PageStore DataFileManager DataAccessor Runs

/-- The entry that the map keeps for a data page. One of a map page that is not there
yet counts as empty. -/
def entry (s : DataStore) (p : Nat) : FreeSpaceEntry :=
  match pageAs s (mapKey (convertToMapPageID p)) FilePage.asMap with
  | some mapPage => mapPage (convertToMapIndex p)
  | none => .empty

/-- The store, with the bytes and the slots that callers reserved on each page and did
not return. -/
structure State where
  store : DataStore
  bytes : Nat → Nat
  slots : Nat → Nat

inductive Event
  | allocateDataPage (recordSize dataPageID : Nat)
  | addFreeSpace (pageID recordSize : Nat)
  | write (dataPageID : Nat) (page : RawPage)

/-- A call, or a caller that writes the page it was given and lets it go. -/
inductive Step (s : State) : Event → State → Prop
  | allocateDataPage {recordSize dataPageID store} : 0 < recordSize → recordSize ≤ DataFilePage.MAX_RECORD_SIZE →
      run exec (DataFileManager.allocateDataPage recordSize) s.store = some (dataPageID, store) →
      Step s (.allocateDataPage recordSize dataPageID)
        ⟨store, Function.update s.bytes dataPageID (s.bytes dataPageID + recordSize),
          Function.update s.slots dataPageID (s.slots dataPageID + 1)⟩
  | addFreeSpace {pageID recordSize store} : 1 ≤ s.slots pageID → recordSize ≤ s.bytes pageID →
      run exec (DataFileManager.addFreeSpace pageID recordSize) s.store = some ((), store) →
      Step s (.addFreeSpace pageID recordSize)
        ⟨store, Function.update s.bytes pageID (s.bytes pageID - recordSize),
          Function.update s.slots pageID (s.slots pageID - 1)⟩
  | write {dataPageID page store} : 1 ≤ dataPageID → s.store.page (dataKey dataPageID) ≠ none →
      run exec (do setData (dataKey dataPageID) (.data page); unpinPage (dataKey dataPageID) true) s.store =
        some ((), store) →
      Step s (.write dataPageID page) { s with store := store }

/-- A new database. -/
def Init (s : State) : Prop := s.store = newDataStore ∧ s.bytes = (fun _ => 0) ∧ s.slots = fun _ => 0

/-! ## What a call does -/

/-- The data file has the pages below `N`, the map those below `M`. -/
structure Laid (s : DataStore) (N M : Nat) : Prop where
  dataHeader : s.page (dataKey 0) = some (.dataHeader N)
  dataPages : ∀ p, s.page (dataKey p) ≠ none ↔ p < N
  mapHeader : s.page (mapKey 0) = some (.mapHeader M)
  mapPages : ∀ i, s.page (mapKey i) ≠ none ↔ i < M

/-- `allocateDataPage n` took page `p`. -/
structure Allocated (s : DataStore) (N M n p : Nat) (s' : DataStore) (N' M' : Nat) : Prop where
  first : IsLeast {q | 1 ≤ q ∧ (entry s q).fits n = true} p
  mapPage : (∃ q, 1 ≤ q ∧ q ≤ covered M ∧ (entry s q).fits n = true) ∧ p ≤ covered M ∧ M' = M ∨
    (∀ q, 1 ≤ q → q ≤ covered M → ¬ (entry s q).fits n = true) ∧ p = covered M + 1 ∧ M' = M + 1
  charged : if 0 < (entry s p).invalidSlotNum then
      n ≤ (entry s p).freeSpace ∧ entry s' p = ⟨(entry s p).invalidSlotNum - 1, (entry s p).freeSpace - n⟩
    else n + DataFilePage.SLOT_SIZE ≤ (entry s p).freeSpace ∧
      entry s' p = ⟨0, (entry s p).freeSpace - (n + DataFilePage.SLOT_SIZE)⟩
  others : ∀ q, 1 ≤ q → q ≠ p → entry s' q = entry s q
  dataPage : p < N ∧ N' = N ∨ p = N ∧ N' = N + 1
  laid : Laid s' N' M'

/-- `addFreeSpace p n` credited page `p`. -/
structure Credited (s : DataStore) (N M p n : Nat) (s' : DataStore) : Prop where
  credited : entry s' p = ⟨(entry s p).invalidSlotNum + 1, (entry s p).freeSpace + n⟩
  capacity : (entry s p).freeSpace + n ≤ FreeSpaceEntry.empty.freeSpace
  others : ∀ q, 1 ≤ q → q ≠ p → entry s' q = entry s q
  laid : Laid s' N M

/-! ## The invariant -/

/-- What the entry lacks is what is reserved, and the slots that were ever made. -/
def Tally (e : FreeSpaceEntry) (bytes slots : Nat) : Prop :=
  e.freeSpace + bytes + DataFilePage.SLOT_SIZE * (e.invalidSlotNum + slots) = FreeSpaceEntry.empty.freeSpace

namespace Tally

variable {e : FreeSpaceEntry} {bytes slots n : Nat}

theorem iff : Tally e bytes slots ↔ e.freeSpace + bytes + 5 * (e.invalidSlotNum + slots) = 4090 := Iff.rfl

theorem small (h : Tally e bytes slots) : e.freeSpace ≤ 4090 ∧ e.invalidSlotNum ≤ 818 ∧ bytes ≤ 4090 := by
  rw [iff] at h
  omega

theorem capacity (h : Tally e bytes slots) : e.freeSpace ≤ FreeSpaceEntry.empty.freeSpace := h.small.1

theorem empty : Tally .empty 0 0 := rfl

/-- Nothing is reserved on an empty page. -/
theorem of_empty (h : Tally .empty bytes slots) : slots = 0 := by
  have h' : 4090 + bytes + 5 * (0 + slots) = 4090 := h
  omega

theorem reserve (h : Tally e bytes slots) (hfits : e.fits n = true) :
    Tally (e.reserve n) (bytes + n) (slots + 1) ∧
    if 0 < e.invalidSlotNum then n ≤ e.freeSpace ∧ e.reserve n = ⟨e.invalidSlotNum - 1, e.freeSpace - n⟩
    else n + DataFilePage.SLOT_SIZE ≤ e.freeSpace ∧ e.reserve n = ⟨0, e.freeSpace - (n + DataFilePage.SLOT_SIZE)⟩ := by
  have hsmall := h.small
  obtain ⟨hle, heq⟩ := FreeSpaceEntry.reserve_eq hfits (by omega) (by omega)
  rw [iff] at h
  rw [heq]
  unfold FreeSpaceEntry.slotCost at hle ⊢
  have hslot : DataFilePage.SLOT_SIZE = 5 := rfl
  by_cases hpos : 0 < e.invalidSlotNum
  · rw [if_pos hpos] at hle ⊢
    rw [if_pos hpos, iff]
    refine ⟨?_, hle, rfl⟩
    show e.freeSpace - (n + 0) + (bytes + n) + 5 * (e.invalidSlotNum - 1 + (slots + 1)) = 4090
    omega
  · rw [if_neg hpos] at hle ⊢
    have h0 : e.invalidSlotNum = 0 := by omega
    rw [if_neg hpos, iff, h0]
    refine ⟨?_, hle, rfl⟩
    show e.freeSpace - (n + DataFilePage.SLOT_SIZE) + (bytes + n) + 5 * (0 - 1 + (slots + 1)) = 4090
    omega

theorem addFreeSpace (h : Tally e bytes slots) (hslots : 1 ≤ slots) (hn : n ≤ bytes) :
    Tally (e.addFreeSpace n) (bytes - n) (slots - 1) ∧ e.addFreeSpace n = ⟨e.invalidSlotNum + 1, e.freeSpace + n⟩ ∧
    e.freeSpace + n ≤ FreeSpaceEntry.empty.freeSpace := by
  have hsmall := h.small
  rw [iff] at h
  rw [FreeSpaceEntry.addFreeSpace_eq (by omega) (by omega), iff]
  refine ⟨?_, rfl, show e.freeSpace + n ≤ 4090 by omega⟩
  show e.freeSpace + n + (bytes - n) + 5 * (e.invalidSlotNum + 1 + (slots - 1)) = 4090
  omega

end Tally

/-- The map keeps the tally of every page. -/
structure Fitted (s : State) (N M : Nat) (book : Nat → FreeSpaceEntry) : Prop where
  idle : Idle s.store
  map : MapFile s.store M book
  data : DataFile s.store N fun _ _ => True
  tally : ∀ p, 1 ≤ p → Tally (book p) (s.bytes p) (s.slots p)
  beyond : ∀ p, N ≤ p → book p = .empty
  covers : N ≤ covered M + 1
  header : s.slots 0 = 0

variable {s s' : State} {t t' : DataStore} {N M n p : Nat} {book : Nat → FreeSpaceEntry}

theorem entry_eq (h : MapFile t M book) (hempty : ∀ q, covered M < q → book q = .empty) {q : Nat} (hq : 1 ≤ q) :
    entry t q = book q := by
  unfold entry
  by_cases hcov : q ≤ covered M
  · have hpage := h.page _ (convertToMapPageID_pos q) (convertToMapPageID_lt hq hcov)
    rw [show pageAs t (mapKey (convertToMapPageID q)) FilePage.asMap =
      some fun j => book (convertToDataPageID (convertToMapPageID q) j) by simp [pageAs, hpage, FilePage.asMap]]
    exact congrArg book (convertToDataPageID_convertTo hq)
  · have hM : M ≤ convertToMapPageID q := by
      rw [covered_eq] at hcov
      show M ≤ (q - 1) / 1024 + 1
      omega
    rw [show pageAs t (mapKey (convertToMapPageID q)) FilePage.asMap = none by simp [pageAs, h.fresh _ hM],
      hempty q (Nat.not_le.1 hcov)]

theorem laid_of (hmap : MapFile t M book) (hdata : DataFile t N fun _ _ => True) : Laid t N M := by
  refine ⟨hdata.header, fun q => ⟨fun hq => ?_, fun hq => ?_⟩, hmap.header, fun i => ⟨fun hi => ?_, fun hi => ?_⟩⟩
  · by_contra hge
    exact hq (hdata.fresh q (Nat.not_lt.1 hge))
  · rcases Nat.eq_zero_or_pos q with rfl | hpos
    · simp [hdata.header]
    · obtain ⟨raw, hraw, -⟩ := hdata.page q hpos hq
      simp [hraw]
  · by_contra hge
    exact hi (hmap.fresh i (Nat.not_lt.1 hge))
  · rcases Nat.eq_zero_or_pos i with rfl | hpos
    · simp [hmap.header]
    · simp [hmap.page i hpos hi]

/-- A write to one entry of the map, seen through `entry`. -/
theorem entry_others (h : MapFile t M book) (hempty : ∀ q, covered M < q → book q = .empty) {M' : Nat}
    {e : FreeSpaceEntry}
    (h' : MapFile t' M' (Function.update book p e)) (hM : M ≤ M') (hp : 1 ≤ p) (hpM : p ≤ covered M') :
    entry t' p = e ∧ ∀ q, 1 ≤ q → q ≠ p → entry t' q = entry t q := by
  have hempty' : ∀ q, covered M' < q → Function.update book p e q = .empty := fun q hq => by
    rw [Function.update_of_ne (by omega)]
    exact hempty q (lt_of_le_of_lt (covered_mono hM) hq)
  constructor
  · rw [entry_eq h' hempty' hp, Function.update_self]
  · intro q hq hne
    rw [entry_eq h' hempty' hq, entry_eq h hempty hq, Function.update_of_ne hne]

section Fitted
variable (h : Fitted s N M book)
include h

theorem Fitted.empty {q : Nat} (hq : covered M < q) : book q = .empty := h.beyond q (by have := h.covers; omega)

theorem Fitted.entry_eq {q : Nat} (hq : 1 ≤ q) : entry s.store q = book q :=
  FirstFit.entry_eq h.map (fun _ => h.empty) hq

/-- What is reserved is on pages that are there. -/
theorem Fitted.reserved (hslots : 1 ≤ s.slots p) : 1 ≤ p ∧ p < N := by
  have hp : p ≠ 0 := by
    rintro rfl
    simp [h.header] at hslots
  refine ⟨Nat.one_le_iff_ne_zero.2 hp, ?_⟩
  by_contra hge
  have htally := h.tally p (Nat.one_le_iff_ne_zero.2 hp)
  rw [h.beyond p (Nat.not_lt.1 hge)] at htally
  have := htally.of_empty
  omega

theorem Fitted.allocateDataPage (hn : n ≤ DataFilePage.MAX_RECORD_SIZE) :
    wp exec (DataFileManager.allocateDataPage n) (fun p t => ∃ N' M', Allocated s.store N M n p t N' M' ∧
      Fitted ⟨t, Function.update s.bytes p (s.bytes p + n), Function.update s.slots p (s.slots p + 1)⟩ N' M'
        (Function.update book p ((book p).reserve n))) s.store := by
  unfold DataFileManager.allocateDataPage
  rw [wp_bind]
  apply wp_conseq (wp_and_wlp (reserve_spec h.map h.idle fun _ => h.empty) (reserve_held n))
  rintro p t ⟨⟨hp, hbefore, hcase, honly, M', hMM', hpM', hgrown, hmap⟩, hheld⟩
  have hcovers := h.covers
  have hentry : ∀ q, 1 ≤ q → entry s.store q = book q := fun q => h.entry_eq
  -- the entry of the next page to be made is empty, and fits
  have hnext : (book N).fits n = true := by
    rw [h.beyond N le_rfl]
    exact fits_empty hn
  have hthere : ∀ q, q < p → q ≤ covered M := fun q hq => by
    rcases hgrown with ⟨hle, -⟩ | ⟨rfl, -⟩
    · exact hq.le.trans hle
    · exact Nat.lt_succ_iff.1 hq
  have hN : p ≤ N := by
    by_contra hlt
    exact hbefore N h.data.pos (Nat.not_le.1 hlt) (hthere N (Nat.not_le.1 hlt)) hnext
  have hfits : (book p).fits n = true := by
    rcases hcase with ⟨-, hfits⟩ | rfl
    · exact hfits
    · rw [h.empty (Nat.lt_succ_self _)]
      exact fits_empty hn
  rw [wp_bind]
  refine wp_conseq (wp_and_wlp (obtain_spec (h.data.frame fun q => honly.1 _ fun i => by simp) (hheld.idle h.idle) hp hN
    trivial) (obtain_held p)) ?_
  rintro - t' ⟨⟨hdata, hfile, -⟩, -, hlatch⟩
  have hmap' : MapFile t' M' _ := hmap.frame fun i => hdata.1 _ fun j => by simp
  obtain ⟨hself, hothers⟩ := entry_others h.map (fun _ => h.empty) hmap' hMM' hp hpM'
  obtain ⟨htally, hcharge⟩ := (h.tally p hp).reserve hfits
  have hcovers' : max N (p + 1) ≤ covered M' + 1 :=
    max_le (hcovers.trans (Nat.succ_le_succ (covered_mono hMM'))) (Nat.succ_le_succ hpM')
  refine (wp_pure _).2 ⟨max N (p + 1), M', ⟨⟨⟨hp, by rw [hentry p hp]; exact hfits⟩, ?_⟩, ?_, ?_, hothers, ?_,
    laid_of hmap' hfile⟩, ⟨?_, hmap', hfile, ?_, ?_, hcovers', ?_⟩⟩
  · rintro q ⟨hq, hqfits⟩
    by_contra hlt
    rw [hentry q hq] at hqfits
    exact hbefore q hq (Nat.not_le.1 hlt) (hthere q (Nat.not_le.1 hlt)) hqfits
  · rcases hgrown with ⟨hle, rfl⟩ | ⟨rfl, rfl⟩
    · exact .inl ⟨⟨p, hp, hle, by rw [hentry p hp]; exact hfits⟩, hle, rfl⟩
    · exact .inr ⟨fun q hq hle => by rw [hentry q hq]; exact hbefore q hq (Nat.lt_succ_of_le hle) hle, rfl, rfl⟩
  · rw [hself, hentry p hp]
    exact hcharge
  · by_cases hpN : p < N
    · exact .inl ⟨hpN, Nat.max_eq_left hpN⟩
    · obtain rfl : p = N := Nat.le_antisymm hN (Nat.not_lt.1 hpN)
      exact .inr ⟨rfl, Nat.max_eq_right (Nat.le_succ p)⟩
  · exact fun k => by rw [hlatch]; exact hheld.idle h.idle k
  · intro q hq
    by_cases hqp : q = p
    · subst hqp
      simp only [Function.update_self]
      exact htally
    · simp only [Function.update_of_ne hqp]
      exact h.tally q hq
  · intro q hq
    rw [Function.update_of_ne (by have := le_max_right N (p + 1); omega)]
    exact h.beyond q ((le_max_left _ _).trans hq)
  · show Function.update s.slots p (s.slots p + 1) 0 = 0
    rw [Function.update_of_ne (Nat.ne_of_lt hp)]
    exact h.header

theorem Fitted.addFreeSpace (hslots : 1 ≤ s.slots p) (hn : n ≤ s.bytes p) :
    wp exec (DataFileManager.addFreeSpace p n) (fun _ t => Credited s.store N M p n t ∧
      Fitted ⟨t, Function.update s.bytes p (s.bytes p - n), Function.update s.slots p (s.slots p - 1)⟩ N M
        (Function.update book p ((book p).addFreeSpace n))) s.store := by
  obtain ⟨hp, hpN⟩ := h.reserved hslots
  have hpM : p ≤ covered M := by
    have := h.covers
    omega
  apply wp_conseq (wp_and_wlp (addFreeSpace_spec h.map h.idle hp hpM n) (addFreeSpace_held p n))
  rintro - t ⟨⟨honly, hmap⟩, -, hlatch⟩
  obtain ⟨hself, hothers⟩ := entry_others h.map (fun _ => h.empty) hmap le_rfl hp hpM
  obtain ⟨htally, hcredit, hcap⟩ := (h.tally p hp).addFreeSpace hslots hn
  have hdata : DataFile t N fun _ _ => True := h.data.frame fun q => honly.1 _ fun i => by simp
  refine ⟨⟨?_, ?_, hothers, laid_of hmap hdata⟩, ⟨?_, hmap, hdata, ?_, ?_, h.covers, ?_⟩⟩
  · rw [hself, h.entry_eq hp, hcredit]
  · rw [h.entry_eq hp]
    exact hcap
  · exact fun k => by rw [hlatch]; exact h.idle k
  · intro q hq
    by_cases hqp : q = p
    · subst hqp
      simp only [Function.update_self]
      exact htally
    · simp only [Function.update_of_ne hqp]
      exact h.tally q hq
  · intro q hq
    rw [Function.update_of_ne (by omega)]
    exact h.beyond q hq
  · show Function.update s.slots p (s.slots p - 1) 0 = 0
    rw [Function.update_of_ne (by omega)]
    exact h.header

end Fitted

theorem Fitted.step (h : Fitted s N M book) {e : Event} (hstep : Step s e s') :
    ∃ N' M' book', Fitted s' N' M' book' := by
  cases hstep with
  | allocateDataPage _ hn hrun =>
    obtain ⟨N', M', -, h'⟩ := wp_run (h.allocateDataPage hn) hrun
    exact ⟨N', M', _, h'⟩
  | addFreeSpace hslots hn hrun => exact ⟨N, M, _, (wp_run (h.addFreeSpace hslots hn) hrun).2⟩
  | @write q page store hq hthere hrun =>
    have hqN : q < N := by
      by_contra hge
      exact hthere (h.data.fresh q (Nat.not_lt.1 hge))
    obtain ⟨raw, hraw, -⟩ := h.data.page q hq hqN
    have hwrite : wlp exec (do setData (dataKey q) (.data page); unpinPage (dataKey q) true)
        (fun _ t => t.page = Function.update s.store.page (dataKey q) (some (.data page)) ∧
          t.latch = s.store.latch) s.store := by
      simp
    obtain ⟨hpage, hlatch⟩ := hwrite _ _ hrun
    have hself : store.page (dataKey q) = some (.data page) := by simp [hpage]
    have hother : ∀ r, r ≠ q → store.page (dataKey r) = s.store.page (dataKey r) := fun r hr => by simp [hpage, hr]
    exact ⟨N, M, book, fun k => by rw [hlatch]; exact h.idle k, h.map.frame fun i => by simp [hpage],
      h.data.setPage hq hqN hself trivial (fun _ _ _ _ => trivial) hother, h.tally, h.beyond, h.covers, h.header⟩

theorem init_fitted (h : Init s) : Fitted s 1 1 fun _ => .empty := by
  obtain ⟨hs, hbytes, hslots⟩ := h
  refine ⟨fun k => by rw [hs]; rfl, by rw [hs]; exact newDataStore_map,
    by rw [hs]; exact newDataStore_data, fun p _ => ?_,
    fun _ _ => rfl, le_rfl, by rw [hslots]⟩
  rw [hbytes, hslots]
  exact Tally.empty

/-- In every state that is reached, each call takes the first page that fits and no
entry wraps. -/
theorem first_fit (h : Reach Init Step s) : ∃ N M, Laid s.store N M ∧ (∀ p, N ≤ p → entry s.store p = .empty) ∧
    (∀ p, 1 ≤ p → (entry s.store p).freeSpace ≤ FreeSpaceEntry.empty.freeSpace ∧
      (entry s.store p).invalidSlotNum ≤ 818) ∧
    (∀ n, 0 < n → n ≤ DataFilePage.MAX_RECORD_SIZE → ∃ p store N' M',
      run exec (allocateDataPage n) s.store = some (p, store) ∧ Allocated s.store N M n p store N' M') ∧
    ∀ p n, 1 ≤ s.slots p → n ≤ s.bytes p → ∃ store,
      run exec (addFreeSpace p n) s.store = some ((), store) ∧ Credited s.store N M p n store := by
  obtain ⟨N, M, book, hf⟩ : ∃ N M book, Fitted s N M book := by
    apply Reach.inv (I := fun s => ∃ N M book, Fitted s N M book) (fun s hs => ⟨_, _, _, init_fitted hs⟩) ?_ h
    rintro s e s' ⟨N, M, book, hf⟩ hstep
    exact hf.step hstep
  refine ⟨N, M, laid_of hf.map hf.data, fun p hp => ?_, fun p hp => ?_, fun n _ hn => ?_, fun p n hslots hn => ?_⟩
  · rw [hf.entry_eq (hf.data.pos.trans hp)]
    exact hf.beyond p hp
  · rw [hf.entry_eq hp]
    exact ⟨(hf.tally p hp).capacity, (hf.tally p hp).small.2.1⟩
  · obtain ⟨p, store, hrun, N', M', hall, -⟩ := hf.allocateDataPage hn
    exact ⟨p, store, N', M', hrun, hall⟩
  · obtain ⟨_, store, hrun, hcred, -⟩ := hf.addFreeSpace hslots hn
    exact ⟨store, hrun, hcred⟩

def newState : State := ⟨newDataStore, fun _ => 0, fun _ => 0⟩

theorem newState_init : Init newState := ⟨rfl, rfl, rfl⟩

/-- A record that fills the first page, then one that does not fit there. -/
theorem first_fit_second : ∃ s : State, s.slots 1 = 1 ∧ s.bytes 1 = 4085 ∧
    ∃ N M, Laid s.store N M ∧ ∃ p store N' M', run exec (allocateDataPage 1) s.store = some (p, store) ∧
      Allocated s.store N M 1 p store N' M' ∧ p = 2 := by
  have heval : ((run exec (allocateDataPage 4085) newDataStore).bind fun r =>
      (run exec (allocateDataPage 1) r.2).map fun r' => (r.1, r'.1)) = some (1, 2) := by decide +kernel
  obtain ⟨⟨p₁, s₁⟩, hfirst, heval⟩ := Option.bind_eq_some_iff.1 heval
  obtain ⟨⟨p₂, s₂⟩, hsecond, heval⟩ := Option.map_eq_some_iff.1 heval
  obtain ⟨rfl, rfl⟩ := Prod.mk.inj heval
  have hstep : Step newState (.allocateDataPage 4085 1) ⟨s₁, _, _⟩ := .allocateDataPage (by decide) le_rfl hfirst
  obtain ⟨N, M, hlaid, -, -, hallocate, -⟩ := first_fit (.next (.start newState_init) hstep)
  obtain ⟨p, store, N', M', hrun, hall⟩ := hallocate 1 (by decide) (by decide)
  have hp : p = 2 := by
    rw [show run exec (allocateDataPage 1) s₁ = some (2, s₂) from hsecond] at hrun
    exact (Prod.mk.inj (Option.some.inj hrun)).1.symm
  exact ⟨_, rfl, rfl, N, M, hlaid, p, store, N', M', hrun, hall, hp⟩

end MisakiDB.FirstFit
