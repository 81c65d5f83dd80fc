import MisakiDB.Data.DataAccessor
/-!
# What the calls of `DataAccessor` still hold when they return

Each call takes pins and latches by hand and gives them back on every path, from any
state of the pages: a chain that was freed, relinked or taken by another blob
included. The exception is `getRecordValue` when the slot holds no record of the
key: the data page stays pinned and read-latched (`given_back`).
-/

namespace MisakiDB.DataAccessor

open Prog PageStore DataFileManager

/-- The same pins and the same latches. -/
def SameHeld (s s' : DataStore) : Prop := s'.pins = s.pins ∧ s'.latch = s.latch

/-- One pin more, on a page. -/
def OneMore (s : DataStore) (k : PageKey) (s' : DataStore) : Prop :=
  s'.pins = Function.update s.pins k (s.pins k + 1) ∧ s'.latch = s.latch

variable {s s' t : DataStore}

theorem SameHeld.trans (h : SameHeld s t) (h' : SameHeld t s') : SameHeld s s' :=
  ⟨h'.1.trans h.1, h'.2.trans h.2⟩

/-! ## Data pages and their map -/

theorem searchMapPage_held (n i : Nat) : wlp exec (searchMapPage n i) (fun _ => SameHeld s) s := by
  unfold searchMapPage
  simp only [wlp_bind, wlp_fetchPage, wlp_getMapPage]
  intro p _ m _
  split
  · simp only [wlp_bind, wlp_setData, wlp_unpinPage, wlp_pure]
    intro q _ _
    simp [SameHeld]
  · simp only [wlp_bind, wlp_unpinPage, wlp_pure]
    intro _
    simp [SameHeld]

theorem searchMap_held (n rest i : Nat) : wlp exec (searchMap n rest i) (fun _ => SameHeld s) s := by
  induction rest generalizing s i with
  | zero => simp [searchMap, SameHeld]
  | succ rest ih =>
    rw [searchMap, wlp_bind]
    refine wlp_conseq (searchMapPage_held n i) fun o s' hs' => ?_
    cases o with
    | some dataPageID => exact (wlp_pure _).2 hs'
    | none => exact wlp_conseq (ih (i + 1)) fun _ _ => hs'.trans

theorem reserve_held (n : Nat) : wlp exec (reserve n) (fun _ => SameHeld s) s := by
  unfold reserve
  simp only [wlp_bind, wlp_fetchPage, wlp_wLatch, wlp_getMapHeader]
  intro p _ hlatch next _
  refine wlp_conseq (searchMap_held _ _ _) fun o s' hs' => ?_
  simp only [setLatch_pins, setPins_pins, setLatch_latch, setPins_latch, SameHeld] at hs' hlatch
  cases o with
  | none =>
    simp only [wlp_bind, wlp_appendNewPage, wlp_unpinPage, wlp_setData, wlp_wUnlatch, wlp_pure]
    intro _ _ q _ q' _ _ _
    simp [SameHeld, hs'.1, hs'.2, ← hlatch]
  | some dataPageID =>
    simp only [wlp_bind, wlp_unpinPage, wlp_wUnlatch, wlp_pure]
    intro _ _
    simp [SameHeld, hs'.1, hs'.2, ← hlatch]

/-- A pin taken before another, and given back after it. -/
theorem pin_pin_unpin {κ : Type} [DecidableEq κ] (f : κ → Nat) (a b : κ) :
    Function.update (Function.update (Function.update f a (f a + 1)) b (Function.update f a (f a + 1) b + 1)) a
      (Function.update (Function.update f a (f a + 1)) b (Function.update f a (f a + 1) b + 1) a - 1) =
      Function.update f b (f b + 1) := by
  by_cases h : a = b
  · subst h
    simp
  · funext x
    by_cases ha : x = a
    · subst ha
      simp [h]
    · by_cases hb : x = b
      · subst hb
        simp [ha]
      · simp [ha, hb]

theorem obtain_held (p : Nat) : wlp exec (obtain p) (fun _ => OneMore s (dataKey p)) s := by
  unfold obtain
  simp only [wlp_bind, wlp_fetchPage, wlp_wLatch, wlp_getDataHeader]
  intro _ _ hlatch next _
  simp only [setPins_latch] at hlatch
  split
  · simp only [wlp_bind, wlp_appendNewPage, wlp_setData, wlp_wUnlatch, wlp_unpinPage]
    intro _ _ _ _ _ _ _
    refine ⟨?_, by simp [← hlatch]⟩
    simp only [setPage_pins, setLatch_pins, setPins_pins]
    exact pin_pin_unpin _ _ _
  · simp only [wlp_bind, wlp_fetchPage, wlp_wUnlatch, wlp_unpinPage]
    intro _ _ _ _
    refine ⟨?_, by simp [← hlatch]⟩
    simp only [setLatch_pins, setPins_pins]
    exact pin_pin_unpin _ _ _

theorem allocateDataPage_held (n : Nat) : wlp exec (allocateDataPage n) (fun p => OneMore s (dataKey p)) s := by
  unfold allocateDataPage
  rw [wlp_bind]
  refine wlp_conseq (reserve_held n) fun p t ht => ?_
  rw [wlp_bind]
  refine wlp_conseq (obtain_held p) fun _ s' hs' => ?_
  rw [wlp_pure]
  exact ⟨by rw [hs'.1, ht.1], hs'.2.trans ht.2⟩

theorem addFreeSpace_held (p n : Nat) : wlp exec (addFreeSpace p n) (fun _ => SameHeld s) s := by
  unfold addFreeSpace
  simp only [wlp_bind, wlp_fetchPage, wlp_wLatch, wlp_getMapPage, wlp_setData, wlp_wUnlatch, wlp_unpinPage]
  intro _ _ hlatch _ _ _ _ _ _
  simp only [setPins_latch] at hlatch
  simp [SameHeld, ← hlatch]

/-! ## Blob pages -/

/-- Two write latches, taken and given back. -/
theorem latch_latch_unlatch {κ : Type} [DecidableEq κ] (f : κ → Latch) (a b : κ) (ha : f a = .reading 0)
    (hb : Function.update f a .writing b = .reading 0) :
    Function.update (Function.update (Function.update (Function.update f a .writing) b .writing) b (.reading 0)) a
      (.reading 0) = f := by
  have hne : b ≠ a := fun heq => by simp [heq] at hb
  rw [Function.update_of_ne hne] at hb
  funext x
  by_cases hxa : x = a
  · simp [hxa, ha]
  · by_cases hxb : x = b
    · simp [hxb, hne, hb]
    · simp [hxa, hxb]

theorem newBlobPage_held : wlp exec newBlobPage (fun p => OneMore s (blobKey p)) s := by
  unfold newBlobPage
  simp only [wlp_bind, wlp_fetchPage, wlp_wLatch, wlp_getBlobHeader]
  intro _ _ hlatch header _
  simp only [setPins_latch] at hlatch
  cases header.freePageListHeader with
  | none =>
    simp only [wlp_bind, wlp_appendNewPage, wlp_wLatch, wlp_setData, wlp_getBlobPage, wlp_wUnlatch, wlp_unpinPage,
      wlp_pure]
    intro _ hnew _ _ _ _ _ _ _ _ _
    simp only [setPins_latch, setPage_latch, setLatch_latch] at hnew
    refine ⟨?_, ?_⟩
    · simp only [setPage_pins, setLatch_pins, setPins_pins]
      exact pin_pin_unpin _ _ _
    · simp only [setPins_latch, setPage_latch, setLatch_latch]
      exact latch_latch_unlatch _ _ _ hlatch hnew
  | some free =>
    simp only [wlp_bind, wlp_fetchPage, wlp_wLatch, wlp_setData, wlp_getBlobPage, wlp_wUnlatch, wlp_unpinPage, wlp_pure]
    intro _ _ hnew _ _ _ _ _ _ _ _ _ _ _
    simp only [setPins_latch, setLatch_latch] at hnew
    refine ⟨?_, ?_⟩
    · simp only [setPage_pins, setLatch_pins, setPins_pins]
      exact pin_pin_unpin _ _ _
    · simp only [setPins_latch, setPage_latch, setLatch_latch]
      exact latch_latch_unlatch _ _ _ hlatch hnew

theorem deleteBlobPage_held (p : Nat) : wlp exec (deleteBlobPage p) (fun _ => SameHeld s) s := by
  unfold deleteBlobPage
  simp only [wlp_bind, wlp_fetchPage, wlp_wLatch, wlp_getBlobHeader]
  intro _ _ hlatch header _
  simp only [setPins_latch] at hlatch
  split
  · simp only [wlp_bind, wlp_wUnlatch, wlp_unpinPage, wlp_pure]
    intro _ _
    simp [SameHeld, ← hlatch]
  · simp only [wlp_bind, wlp_fetchPage, wlp_wLatch, wlp_getBlobPage]
    intro _ _ hpage page _
    simp only [setPins_latch, setLatch_latch] at hpage
    have hback := latch_latch_unlatch _ _ _ hlatch hpage
    split
    · simp only [wlp_bind, wlp_wUnlatch, wlp_unpinPage, wlp_pure]
      intro _ _ _ _
      refine ⟨?_, ?_⟩
      · simp
      · simpa only [setPins_latch, setLatch_latch] using hback
    · simp only [wlp_bind, wlp_setData, wlp_wUnlatch, wlp_unpinPage, wlp_pure]
      intro _ _ _ _ _ _ _ _
      refine ⟨?_, ?_⟩
      · simp
      · simpa only [setPins_latch, setPage_latch, setLatch_latch] using hback

/-- Over the pins `P` and the latches `L`, page `k` is pinned once more and being written. -/
structure Writing (P : PageKey → Nat) (L : PageKey → Latch) (k : PageKey) (s : DataStore) : Prop where
  pins : s.pins = Function.update P k (P k + 1)
  free : L k = .reading 0
  latch : s.latch = Function.update L k .writing

section Blobs
variable {P : PageKey → Nat} {L : PageKey → Latch}

/-- Two writers, the first of which stops. -/
theorem latch_handOver {a b : PageKey} (ha : L a = .reading 0) (hb : Function.update L a .writing b = .reading 0) :
    L b = .reading 0 ∧
    Function.update (Function.update (Function.update L a .writing) b .writing) a (.reading 0) =
      Function.update L b .writing := by
  have hne : b ≠ a := fun heq => by simp [heq] at hb
  rw [Function.update_of_ne hne] at hb
  refine ⟨hb, ?_⟩
  funext x
  by_cases hxa : x = a
  · simp [hxa, hne.symm, ha]
  · simp [Function.update_apply, hxa]

/-- The writer goes from page to page: one page is held at a time. -/
theorem insertBlobRest_held (blobID fuel prev : Nat) (value : List Byte) (h : Writing P L (blobKey prev) s) :
    wlp exec (insertBlobRest blobID fuel prev value) (fun last => Writing P L (blobKey last)) s := by
  induction fuel generalizing s prev value with
  | zero => exact (wlp_pure _).2 h
  | succ fuel ih =>
    rw [insertBlobRest]
    split
    · exact (wlp_pure _).2 h
    rw [wlp_bind]
    refine wlp_conseq newBlobPage_held fun new t ht => ?_
    simp only [wlp_bind, wlp_wLatch, wlp_getBlobPage, wlp_setData, wlp_wUnlatch, wlp_unpinPage]
    intro hnew _ _ _ _ _ _ _ _ _ _ _ _ _ _ _ _ _ _
    rw [ht.2, h.latch] at hnew
    obtain ⟨hfree, hlatch⟩ := latch_handOver h.free hnew
    apply ih
    refine ⟨?_, hfree, ?_⟩
    · simp only [setPage_pins, setLatch_pins, setPins_pins, ht.1, h.pins]
      exact pin_pin_unpin _ _ _
    · simpa only [setPage_latch, setPins_latch, setLatch_latch, ht.2, h.latch] using hlatch

/-- `insertBlob`, up to the bytes it gives back. -/
def storeBlob (key value : List Byte) : DataProg PageIDType := do
  let blobID := (← getMember).nextBlobID + 1
  setMember { nextBlobID := blobID }
  if value = [] then Prog.fail
  else
    let firstPageID ← newBlobPage
    wLatch (blobKey firstPageID)
    setData (blobKey firstPageID) (.blob { (← getBlobPage firstPageID) with blobID })
    setData (blobKey firstPageID) (.blob ((← getBlobPage firstPageID).setIsBlobListHead false))
    setData (blobKey firstPageID) (.blob (BlobPage.Head.setKey (← getBlobPage firstPageID) key))
    let sizeToInsert := min value.length BlobPage.Head.MAX_DATA_SIZE
    setData (blobKey firstPageID) (.blob (BlobPage.Head.writeData (← getBlobPage firstPageID) (value.take sizeToInsert)))
    let lastPage ← insertBlobRest blobID value.length firstPageID (value.drop sizeToInsert)
    wUnlatch (blobKey lastPage)
    unpinPage (blobKey lastPage) true
    fetchPage (blobKey firstPageID)
    wLatch (blobKey firstPageID)
    setData (blobKey firstPageID) (.blob ((← getBlobPage firstPageID).setIsBlobListHead true))
    wUnlatch (blobKey firstPageID)
    unpinPage (blobKey firstPageID) true
    pure firstPageID

theorem insertBlob_eq (key value : List Byte) :
    insertBlob key value = storeBlob key value >>= fun first => demand (bytesOf first) := by
  unfold insertBlob storeBlob
  by_cases hv : value = []
  · simp only [if_pos hv, bind_assoc]
    rfl
  · simp only [if_neg hv, bind_assoc]
    rfl

theorem storeBlob_held (key value : List Byte) : wlp exec (storeBlob key value) (fun _ => SameHeld s) s := by
  unfold storeBlob
  simp only [wlp_bind, wlp_getMember, wlp_setMember]
  split
  · exact wlp_fail
  rw [wlp_bind]
  refine wlp_conseq newBlobPage_held fun first t ht => ?_
  simp only [wlp_bind, wlp_wLatch, wlp_getBlobPage, wlp_setData]
  intro hfirst _ _ _ _ _ _ _ _ _ _ _ _ _ _ _ _
  refine wlp_conseq (insertBlobRest_held (P := s.pins) (L := s.latch) _ _ _ _ ⟨?_, ?_, ?_⟩) fun last u hu => ?_
  · simp only [setPage_pins, setLatch_pins, ht.1]
    rfl
  · rwa [ht.2] at hfirst
  · simp only [setPage_latch, setLatch_latch, ht.2, withMember_latch]
  · simp only [wlp_wUnlatch, wlp_unpinPage, wlp_fetchPage, wlp_pure]
    intro _ _ _ _ hlatch _ _ _ _ _ _
    have hback : Function.update (Function.update s.latch (blobKey last) .writing) (blobKey last) (.reading 0) =
        s.latch := by
      rw [Function.update_idem, ← hu.free, Function.update_eq_self]
    simp only [setPins_latch, setLatch_latch, hu.latch, hback] at hlatch
    refine ⟨?_, ?_⟩
    · simp [hu.pins]
    · simp only [setPins_latch, setPage_latch, setLatch_latch, hu.latch, hback]
      rw [Function.update_idem, ← hlatch, Function.update_eq_self]

theorem insertBlob_held (key value : List Byte) : wlp exec (insertBlob key value) (fun _ => SameHeld s) s := by
  rw [insertBlob_eq, wlp_bind]
  refine wlp_conseq (storeBlob_held key value) fun first t ht => ?_
  rw [wlp_demand]
  intro _ _
  exact ht

end Blobs

theorem giveUp_held (p : Nat) (hpins : s.pins = Function.update t.pins (blobKey p) (t.pins (blobKey p) + 1)) {n : Nat}
    (hn : t.latch (blobKey p) = .reading n) (hlatch : s.latch = Function.update t.latch (blobKey p) (.reading (n + 1))) :
    wlp exec (giveUp p) (fun _ => SameHeld t) s := by
  unfold giveUp
  simp only [wlp_bind, wlp_rUnlatch, wlp_unpinPage, wlp_pure]
  intro m hm _
  rw [hlatch, Function.update_self, Latch.reading.injEq] at hm
  obtain rfl : n = m := by omega
  simp [SameHeld, hpins, hlatch, ← hn]

theorem getBlobRest_held (blobID fuel : Nat) (page : Option PageIDType) (blob : List Byte) :
    wlp exec (getBlobRest blobID fuel page blob) (fun _ => SameHeld s) s := by
  induction fuel generalizing s page blob with
  | zero => cases page <;> simp [getBlobRest, SameHeld]
  | succ fuel ih =>
    cases page with
    | none => simp [getBlobRest, SameHeld]
    | some page =>
      rw [getBlobRest]
      simp only [wlp_bind, wlp_fetchPage, wlp_rLatch, wlp_getBlobPage]
      intro _ _ n hn b _
      have hgive : wlp exec (giveUp page) (fun _ => SameHeld s)
          ((s.setPins (blobKey page) (s.pins (blobKey page) + 1)).setLatch (blobKey page) (.reading (n + 1))) :=
        giveUp_held page rfl hn rfl
      split
      · exact hgive
      split
      · exact hgive
      split
      · exact hgive
      simp only [wlp_bind, wlp_rUnlatch, wlp_unpinPage]
      intro m hm _
      refine wlp_conseq (ih _ _) fun _ _ => SameHeld.trans ?_
      simp only [setLatch_latch, Function.update_self, Latch.reading.injEq] at hm
      obtain rfl : n = m := by omega
      simp only [setPins_latch] at hn
      simp [SameHeld, ← hn]

theorem getBlob_held (fuel : Nat) (key ref : List Byte) : wlp exec (getBlob fuel key ref) (fun _ => SameHeld s) s := by
  unfold getBlob
  cases pageIDOf ref with
  | none => simp [SameHeld]
  | some page =>
    simp only [wlp_bind, wlp_fetchPage, wlp_rLatch, wlp_getBlobPage]
    intro _ _ n hn b _
    have hgive : wlp exec (giveUp page) (fun _ => SameHeld s)
        ((s.setPins (blobKey page) (s.pins (blobKey page) + 1)).setLatch (blobKey page) (.reading (n + 1))) :=
      giveUp_held page rfl hn rfl
    split
    · exact hgive
    split
    · exact hgive
    split
    · exact hgive
    simp only [wlp_bind, wlp_rUnlatch, wlp_unpinPage]
    intro m hm _
    refine wlp_conseq (getBlobRest_held _ _ _ _) fun _ _ => SameHeld.trans ?_
    simp only [setLatch_latch, Function.update_self, Latch.reading.injEq] at hm
    obtain rfl : n = m := by omega
    simp only [setPins_latch] at hn
    simp [SameHeld, ← hn]

theorem removeBlobFrom_held (fuel : Nat) (page : Option PageIDType) :
    wlp exec (removeBlobFrom fuel page) (fun _ => SameHeld s) s := by
  induction fuel generalizing s page with
  | zero => cases page <;> simp [removeBlobFrom, SameHeld]
  | succ fuel ih =>
    cases page with
    | none => simp [removeBlobFrom, SameHeld]
    | some page =>
      rw [removeBlobFrom]
      simp only [wlp_bind, wlp_fetchPage, wlp_rLatch, wlp_getBlobPage, wlp_rUnlatch, wlp_unpinPage]
      intro _ _ n hn b _ m hm _
      refine wlp_conseq (deleteBlobPage_held page) fun _ t ht => ?_
      refine wlp_conseq (ih _) fun _ _ => SameHeld.trans (SameHeld.trans ?_ ht)
      simp only [setLatch_latch, Function.update_self, Latch.reading.injEq] at hm
      obtain rfl : n = m := by omega
      simp only [setPins_latch] at hn
      simp [SameHeld, ← hn]

/-! ## The calls -/

theorem getRecordValue_held (fuel : Nat) (key : List Byte) (id : RecordIDType) :
    wlp exec (getRecordValue fuel key id) (fun _ s' => SameHeld s s' ↔
      ∃ raw, pageAs s (dataKey id.pageID) FilePage.asData = some raw ∧
        DataFilePage.HoldsKey raw key id.slotArrayIndex) s := by
  unfold getRecordValue
  simp only [wlp_bind, wlp_fetchPage, wlp_rLatch, wlp_getDataPage, wlp_demand]
  intro _ _ n hn raw hraw r hr
  have hraw' : pageAs s (dataKey id.pageID) FilePage.asData = some raw := hraw
  have hcond : (∃ raw, pageAs s (dataKey id.pageID) FilePage.asData = some raw ∧
      DataFilePage.HoldsKey raw key id.slotArrayIndex) ↔ r.isSome := by
    rw [hraw', DataFilePage.getRecordValue_isSome_iff hr]
    simp
  cases r with
  | none =>
    -- the early return
    rw [wlp_pure, hcond]
    refine iff_of_false (fun hs => ?_) (by simp)
    have := congrFun hs.1 (dataKey id.pageID)
    simp at this
  | some r =>
    simp only [wlp_bind, wlp_rUnlatch, wlp_unpinPage]
    intro m hm _
    have hsame : SameHeld s (((s.setPins (dataKey id.pageID) (s.pins (dataKey id.pageID) + 1)).setLatch (dataKey id.pageID)
        (.reading (n + 1))).setLatch (dataKey id.pageID) (.reading m) |>.setPins (dataKey id.pageID)
          (Function.update s.pins (dataKey id.pageID) (s.pins (dataKey id.pageID) + 1) (dataKey id.pageID) - 1)) := by
      simp only [setLatch_latch, Function.update_self, Latch.reading.injEq] at hm
      obtain rfl : n = m := by omega
      simp only [setPins_latch] at hn
      simp [SameHeld, ← hn]
    split
    · exact wlp_conseq (getBlob_held _ _ _) fun _ _ hs => iff_of_true (hsame.trans hs) (hcond.2 rfl)
    · rw [wlp_pure]
      exact iff_of_true hsame (hcond.2 rfl)

theorem removeRecord_held (fuel : Nat) (id : RecordIDType) :
    wlp exec (removeRecord fuel id) (fun _ => SameHeld s) s := by
  unfold removeRecord
  simp only [wlp_bind, wlp_fetchPage, wlp_wLatch, wlp_getDataPage, wlp_demand, wlp_setData, wlp_wUnlatch, wlp_unpinPage]
  intro _ _ hlatch raw _ r _ _ _ _ _
  simp only [setPins_latch] at hlatch
  cases r.1 with
  | inl n =>
    refine wlp_conseq (addFreeSpace_held _ _) fun _ _ => SameHeld.trans ?_
    simp [SameHeld, ← hlatch]
  | inr ref =>
    rw [wlp_bind]
    refine wlp_conseq (addFreeSpace_held _ _) fun _ t ht => ?_
    refine wlp_conseq (removeBlobFrom_held _ _) fun _ _ => SameHeld.trans (SameHeld.trans ?_ ht)
    simp [SameHeld, ← hlatch]

theorem placeRecord_held (record : List Byte) (b : Bool) : wlp exec (placeRecord record b) (fun _ => SameHeld s) s := by
  unfold placeRecord
  rw [wlp_bind]
  refine wlp_conseq (allocateDataPage_held _) fun p t ht => ?_
  simp only [wlp_bind, wlp_wLatch, wlp_getDataPage, wlp_demand, wlp_setData, wlp_wUnlatch, wlp_unpinPage, wlp_pure]
  intro hlatch raw _ r _ _ _ _ _
  rw [ht.2] at hlatch
  simp [SameHeld, ht.1, ht.2, ← hlatch]

theorem insertRecord_held (key value : List Byte) : wlp exec (insertRecord key value) (fun _ => SameHeld s) s := by
  unfold insertRecord
  split
  · exact wlp_fail
  split
  · rw [wlp_bind]
    exact wlp_conseq (insertBlob_held _ _) fun _ t ht => wlp_conseq (placeRecord_held _ _) fun _ _ => ht.trans
  · exact placeRecord_held _ _

/-- From any state: an insertion and a removal give back what they took, and so does a
`getRecordValue` just when the slot is valid and holds the key. -/
theorem given_back (fuel : Nat) (s s' : DataStore) (key value : List Byte) (id : RecordIDType) :
    (∀ r, run exec (getRecordValue fuel key id) s = some (r, s') → (SameHeld s s' ↔
      ∃ raw, pageAs s (dataKey id.pageID) FilePage.asData = some raw ∧
        DataFilePage.HoldsKey raw key id.slotArrayIndex)) ∧
    (∀ r, run exec (removeRecord fuel id) s = some (r, s') → SameHeld s s') ∧
    ∀ r, run exec (insertRecord key value) s = some (r, s') → SameHeld s s' :=
  ⟨fun r => getRecordValue_held fuel key id r s', fun r => removeRecord_held fuel id r s',
    fun r => insertRecord_held key value r s'⟩

def someKey : List Byte := List.replicate RECORD_KEY_SIZE 97

/-- A record is inserted and removed, and then its id is read. -/
def readAfterRemove : Option (DataStore × DataStore) := do
  let (id, s) ← run exec (insertRecord someKey [7]) newDataStore
  let (_, s) ← run exec (removeRecord 1 id) s
  let (_, s') ← run exec (getRecordValue 1 someKey id) s
  some (s, s')

/-- The page of a removed record stays pinned when the record's id is read. -/
theorem removed_record_keeps_pin : ∃ id r s₁ s₂ s₃,
    run exec (insertRecord someKey [7]) newDataStore = some (id, s₁) ∧
    run exec (removeRecord 1 id) s₁ = some ((), s₂) ∧
    run exec (getRecordValue 1 someKey id) s₂ = some (r, s₃) ∧ ¬ SameHeld s₂ s₃ := by
  have hpins : (readAfterRemove.map fun r => (r.1.pins (dataKey 1), r.2.pins (dataKey 1))) = some (0, 1) := by
    decide +kernel
  simp only [readAfterRemove, Option.bind_eq_bind, Option.map_eq_some_iff, Option.bind_eq_some_iff,
    Option.some.injEq] at hpins
  obtain ⟨_, ⟨⟨id, s₁⟩, h₁, ⟨_, s₂⟩, h₂, ⟨r, s₃⟩, h₃, rfl⟩, hpins⟩ := hpins
  refine ⟨id, r, s₁, s₂, s₃, h₁, h₂, h₃, fun hsame => ?_⟩
  simp only [Prod.mk.injEq] at hpins
  rw [hsame.1, hpins.1] at hpins
  exact absurd hpins.2 (by decide)

end MisakiDB.DataAccessor
