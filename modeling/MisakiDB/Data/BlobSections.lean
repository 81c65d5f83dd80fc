import MisakiDB.Data.BlobFile
/-!
# The latched steps of the blob operations

`insertBlob`, `getBlob` and `removeBlob` latch one page after the other: here they are
cut where they hold no latch, or only that of the last page they wrote. Other threads
run between two sections. A page that is being written stays latched until it is
linked to the next one, or is the last.
-/

namespace MisakiDB.BlobThreads

open Prog PageStore DataFileManager DataAccessor

/-! ## The sections -/

/-- `++m_nextBlobID` on an atomic. -/
def takeBlobID : DataProg Nat := do
  let blobID := (← getMember).nextBlobID + 1
  setMember { nextBlobID := blobID }
  pure blobID

/-- The first page. It stays latched. -/
def writeHead (blobID : Nat) (key data : List Byte) (page : PageIDType) : DataProg Unit := do
  wLatch (blobKey page)
  setData (blobKey page) (.blob { (← getBlobPage page) with blobID })
  setData (blobKey page) (.blob ((← getBlobPage page).setIsBlobListHead false))
  setData (blobKey page) (.blob (BlobPage.Head.setKey (← getBlobPage page) key))
  setData (blobKey page) (.blob (BlobPage.Head.writeData (← getBlobPage page) data))

/-- A page after the first. It stays latched, and the page before it is let go. -/
def writeNext (blobID : Nat) (prevPage : PageIDType) (data : List Byte) (page : PageIDType) : DataProg Unit := do
  wLatch (blobKey page)
  setData (blobKey page) (.blob { (← getBlobPage page) with blobID })
  setData (blobKey page) (.blob ((← getBlobPage page).setIsBlobListHead false))
  setData (blobKey prevPage) (.blob { (← getBlobPage prevPage) with next := some page })
  wUnlatch (blobKey prevPage)
  unpinPage (blobKey prevPage) true
  setData (blobKey page) (.blob (BlobPage.NonHead.writeData (← getBlobPage page) data))

/-- The last page is let go. -/
def letGo (page : PageIDType) : DataProg Unit := do
  wUnlatch (blobKey page)
  unpinPage (blobKey page) true

/-- The flag that makes the blob readable. -/
def raiseHead (page : PageIDType) : DataProg Unit := do
  fetchPage (blobKey page)
  wLatch (blobKey page)
  setData (blobKey page) (.blob ((← getBlobPage page).setIsBlobListHead true))
  wUnlatch (blobKey page)
  unpinPage (blobKey page) true

/-- One page, read under its latch. -/
def look (page : PageIDType) : DataProg BlobPage := do
  fetchPage (blobKey page)
  rLatch (blobKey page)
  let blobPage ← getBlobPage page
  rUnlatch (blobKey page)
  unpinPage (blobKey page) false
  pure blobPage

/-- What a reader makes of the first page: the blob's id, the link and the data. -/
def headOf (key : List Byte) (p : BlobPage) : Option (Nat × Option PageIDType × List Byte) :=
  if p.isFreePage then none
  else if ¬ p.isBlobListHead then none
  else if BlobPage.Head.getKey p ≠ key then none
  else some (p.blobID, p.next, BlobPage.Head.readData p)

/-- What it makes of a later page: the link and the data. -/
def nextOf (blobID : Nat) (p : BlobPage) : Option (Option PageIDType × List Byte) :=
  if p.isFreePage then none
  else if p.isBlobListHead then none
  else if p.blobID ≠ blobID then none
  else some (p.next, BlobPage.NonHead.readData p)

/-! ## The functions are their sections -/

theorem insertBlob_sections (key value : List Byte) : insertBlob key value = (do
    let blobID ← takeBlobID
    if value = [] then Prog.fail
    else
      let firstPageID ← newBlobPage
      let size := min value.length BlobPage.Head.MAX_DATA_SIZE
      writeHead blobID key (value.take size) firstPageID
      let lastPage ← insertBlobRest blobID value.length firstPageID (value.drop size)
      letGo lastPage
      raiseHead firstPageID
      demand (bytesOf firstPageID)) := by
  unfold insertBlob takeBlobID writeHead letGo raiseHead
  simp only [bind_assoc]
  rfl

theorem insertBlobRest_sections (blobID fuel : Nat) (prevPage : PageIDType) (value : List Byte) :
    insertBlobRest blobID (fuel + 1) prevPage value = (if value = [] then pure prevPage else do
      let newPage ← newBlobPage
      let size := min value.length BlobPage.NonHead.MAX_DATA_SIZE
      writeNext blobID prevPage (value.take size) newPage
      insertBlobRest blobID fuel newPage (value.drop size)) := by
  rw [insertBlobRest]
  unfold writeNext
  simp only [bind_assoc]

theorem getBlob_sections (fuel : Nat) (key blobFirstPageID : List Byte) :
    getBlob fuel key blobFirstPageID = (match pageIDOf blobFirstPageID with
      | none => pure (some [])
      | some page => do
        match headOf key (← look page) with
        | none => pure none
        | some (blobID, next, data) => getBlobRest blobID fuel next data) := by
  unfold getBlob look headOf giveUp
  cases pageIDOf blobFirstPageID with
  | none => rfl
  | some page =>
    simp only [bind_assoc, Prog.pure_bind]
    congr 1
    funext _
    congr 1
    funext _
    congr 1
    funext p
    by_cases hfree : p.isFreePage
    · simp only [if_pos hfree]
    by_cases hhead : p.isBlobListHead
    · by_cases hkey : BlobPage.Head.getKey p = key
      · simp only [if_neg hfree, hhead, not_true, if_false, hkey, ne_eq]
      · simp only [if_neg hfree, hhead, not_true, if_false, hkey, ne_eq, not_false_eq_true, if_true]
    · simp only [if_neg hfree, if_pos hhead]

theorem getBlobRest_sections (blobID fuel : Nat) (page : PageIDType) (blob : List Byte) :
    getBlobRest blobID (fuel + 1) (some page) blob = (do
      match nextOf blobID (← look page) with
      | none => pure none
      | some (next, data) => getBlobRest blobID fuel next (blob ++ data)) := by
  rw [getBlobRest]
  unfold look nextOf giveUp
  simp only [bind_assoc, Prog.pure_bind]
  congr 1
  funext _
  congr 1
  funext _
  congr 1
  funext p
  by_cases hfree : p.isFreePage
  · simp only [if_pos hfree]
  by_cases hhead : p.isBlobListHead
  · simp only [if_neg hfree, hhead, if_true]
  by_cases hid : p.blobID = blobID
  · simp only [if_neg hfree, hhead, hid, if_false, ne_eq, not_true, Bool.false_eq_true]
  · simp only [if_neg hfree, hhead, hid, if_false, if_true, ne_eq, not_false_eq_true, Bool.false_eq_true]

theorem removeBlobFrom_sections (fuel : Nat) (page : PageIDType) :
    removeBlobFrom (fuel + 1) (some page) = (do
      let blobPage ← look page
      let _ ← deleteBlobPage page
      removeBlobFrom fuel blobPage.next) := by
  rw [removeBlobFrom]
  unfold look
  simp only [bind_assoc]
  rfl

/-! ## What each section does -/

section
variable {s : DataStore} {blobID p q : Nat} {key data : List Byte} {b c : BlobPage}

theorem takeBlobID_does : wlp exec takeBlobID (fun i s' => i = s.member.nextBlobID + 1 ∧ s' = s.withMember ⟨i⟩) s := by
  unfold takeBlobID
  simp

theorem writeHead_does (hb : s.page (blobKey p) = some (.blob b)) (hnew : NewPage b)
    (hkey : key.length = RECORD_KEY_SIZE)
    (hdata : data.length ≤ BlobPage.Head.MAX_DATA_SIZE) :
    wlp exec (writeHead blobID key data p) (fun _ s' => ∃ b', HeadPage b' false blobID key data ∧ b'.next = none ∧
      s'.page = Function.update s.page (blobKey p) (some (.blob b')) ∧
      s'.latch = Function.update s.latch (blobKey p) .writing ∧ s'.member = s.member) s := by
  unfold writeHead
  simp only [wlp_bind, wlp_wLatch, wlp_getBlobPage, wlp_setData]
  intro _ b₁ h₁ _ _ b₂ h₂ _ _ b₃ h₃ _ _ b₄ h₄ _ _
  obtain rfl : b = b₁ := by simpa [pageAs, hb, FilePage.asBlob] using h₁
  obtain rfl : ({ b with blobID } : BlobPage) = b₂ := by simpa [pageAs, FilePage.asBlob] using h₂
  obtain rfl : ({ b with blobID } : BlobPage).setIsBlobListHead false = b₃ :=
    by simpa [pageAs, FilePage.asBlob] using h₃
  obtain rfl : BlobPage.Head.setKey (({ b with blobID } : BlobPage).setIsBlobListHead false) key = b₄ := by
    simpa [pageAs, FilePage.asBlob] using h₄
  exact ⟨_, headPage_written blobID hkey hdata, hnew.next, by simp, by simp, by simp⟩

theorem writeNext_does (hb : s.page (blobKey p) = some (.blob b)) (hnew : NewPage b)
    (hc : s.page (blobKey q) = some (.blob c))
    (hqp : q ≠ p) (hdata : data.length ≤ BlobPage.NonHead.MAX_DATA_SIZE) :
    wlp exec (writeNext blobID q data p) (fun _ s' => ∃ b', TailPage b' blobID data ∧ b'.next = none ∧
      s'.page = Function.update (Function.update s.page (blobKey q) (some (.blob { c with next := some p })))
      (blobKey p)
        (some (.blob b')) ∧
      s'.latch = Function.update (Function.update s.latch (blobKey p) .writing) (blobKey q) (.reading 0) ∧
      s'.member = s.member) s := by
  unfold writeNext
  simp only [wlp_bind, wlp_wLatch, wlp_getBlobPage, wlp_setData, wlp_wUnlatch, wlp_unpinPage]
  intro _ b₁ h₁ _ _ b₂ h₂ _ _ c₁ h₃ _ _ _ _ b₄ h₄ _ _
  obtain rfl : b = b₁ := by simpa [pageAs, hb, FilePage.asBlob] using h₁
  obtain rfl : ({ b with blobID } : BlobPage) = b₂ := by simpa [pageAs, FilePage.asBlob] using h₂
  obtain rfl : c = c₁ := by simpa [pageAs, hc, hqp, FilePage.asBlob] using h₃
  obtain rfl : ({ b with blobID } : BlobPage).setIsBlobListHead false = b₄ := by
    simpa [pageAs, hqp.symm, FilePage.asBlob] using h₄
  refine ⟨_, tailPage_written blobID hdata, hnew.next, ?_, by simp, by simp⟩
  funext k
  by_cases hkp : k = blobKey p
  · simp [hkp]
  · by_cases hkq : k = blobKey q
    · simp [hkq, hqp]
    · simp [hkp, hkq]

theorem letGo_does : wlp exec (letGo p) (fun _ s' => s'.page = s.page ∧
    s'.latch = Function.update s.latch (blobKey p) (.reading 0) ∧ s'.member = s.member) s := by
  unfold letGo
  simp

theorem raiseHead_does (hb : s.page (blobKey p) = some (.blob b)) :
    wlp exec (raiseHead p)
      (fun _ s' => s'.page = Function.update s.page (blobKey p) (some (.blob (b.setIsBlobListHead true))) ∧
      s'.latch = s.latch ∧ s'.member = s.member) s := by
  unfold raiseHead
  simp only [wlp_bind, wlp_fetchPage, wlp_wLatch, wlp_getBlobPage, wlp_setData, wlp_wUnlatch, wlp_unpinPage]
  intro _ _ hlatch b₁ h₁ _ _ _ _
  obtain rfl : b = b₁ := by simpa [pageAs, hb, FilePage.asBlob] using h₁
  simp only [setPins_latch] at hlatch
  refine ⟨by simp, ?_, by simp⟩
  simp [← hlatch]

theorem look_does : wlp exec (look p) (fun b s' => pageAs s (blobKey p) FilePage.asBlob = some b ∧ s'.page = s.page ∧
    s'.latch = s.latch ∧ s'.member = s.member) s := by
  unfold look
  simp only [wlp_bind, wlp_fetchPage, wlp_rLatch, wlp_getBlobPage, wlp_rUnlatch, wlp_unpinPage, wlp_pure]
  intro _ _ n hlatch b hb m hm _
  simp only [setPins_latch] at hlatch
  simp only [setLatch_latch, Function.update_self, Latch.reading.injEq, Nat.add_right_cancel_iff] at hm
  subst hm
  refine ⟨hb, by simp, ?_, by simp⟩
  simp [← hlatch]

end

end MisakiDB.BlobThreads
