import MisakiDB.Data.BlobSections
import MisakiDB.Lib.Runs
/-!
# Blobs under many threads

A reader holds one page at a time. While it reads, the blob may be removed and its
pages go to other blobs: it goes by the free mark, the head flag, the key and the
blob's id. The id tells two blobs apart as long as none is given out again while a
page or a reader has it. Ids are counted from zero each time the database is opened,
so an old blob may have the id of a new one (`mixed_blob`). Otherwise a blob is read
whole or not at all: `read_whole`.
-/

namespace MisakiDB.BlobThreads

open Prog PageStore DataFileManager DataAccessor Runs

/-! ## The system -/

/-- The locals of `insertBlob`. `written` is `firstPageID` and `prevPage`, after the
first round. -/
structure Insertion where
  key : List Byte
  value : List Byte
  blobID : Nat
  written : Option (PageIDType × PageIDType)
  rest : List Byte
  deriving DecidableEq

namespace Insertion

def size (w : Insertion) : Nat :=
  min w.rest.length (if w.written = none then BlobPage.Head.MAX_DATA_SIZE else BlobPage.NonHead.MAX_DATA_SIZE)

/-- A round of the loop on its new page. -/
def write (w : Insertion) (newPage : PageIDType) : DataProg Unit :=
  match w.written with
  | none => writeHead w.blobID w.key (w.rest.take w.size) newPage
  | some (_, prevPage) => writeNext w.blobID prevPage (w.rest.take w.size) newPage

def after (w : Insertion) (newPage : PageIDType) : Insertion :=
  { w with
    written := match w.written with
      | none => some (newPage, newPage)
      | some (firstPageID, _) => some (firstPageID, newPage)
    rest := w.rest.drop w.size }

end Insertion

/-- Where a thread stands. -/
inductive Phase
  | idle
  | inserting (w : Insertion)
  | placing (w : Insertion) (newPage : PageIDType)
  | raising (w : Insertion) (firstPageID : PageIDType)
  | inserted (key blobFirstPageID : List Byte)
  | getting (key : List Byte) (page : PageIDType)
  | reading (key : List Byte) (blobID : Nat) (page : PageIDType) (blob : List Byte)
  | returned (key : List Byte) (blob : Option (List Byte))
  | removing (page : Option PageIDType)
  | deleting (page : PageIDType) (next : Option PageIDType)
  deriving DecidableEq

/-- `getBlob` on a first page id. -/
def getBlobAt (key blobFirstPageID : List Byte) : Phase :=
  match pageIDOf blobFirstPageID with
  | none => .returned key (some [])
  | some page => .getting key page

/-- The loop of `getBlob` goes on, or ends. -/
def goOn (key : List Byte) (blobID : Nat) (next : Option PageIDType) (blob : List Byte) : Phase :=
  match next with
  | none => .returned key (some blob)
  | some page => .reading key blobID page blob

def afterHead (key : List Byte) (p : BlobPage) : Phase :=
  match headOf key p with
  | none => .returned key none
  | some (blobID, next, data) => goOn key blobID next data

def afterNext (key : List Byte) (blobID : Nat) (blob : List Byte) (p : BlobPage) : Phase :=
  match nextOf blobID p with
  | none => .returned key none
  | some (next, data) => goOn key blobID next (blob ++ data)

/-- The blob file, the records that are blobs (the key and the first page's id), and
the blobs that were stored so far. -/
structure State (τ : Type) where
  store : DataStore
  phase : τ → Phase
  live : List (List Byte × List Byte)
  stored : List (List Byte × List Byte)

inductive Event (τ : Type)
  | takeBlobID (t : τ)
  | other

section
variable {τ : Type}

def State.goto [DecidableEq τ] (s : State τ) (t : τ) (store : DataStore) (x : Phase) : State τ :=
  { s with store := store, phase := Function.update s.phase t x }

/-- One latched step of a thread, or the database is closed and opened again. -/
inductive Step [DecidableEq τ] (s : State τ) : Event τ → State τ → Prop
  | takeBlobID {t key value blobID store} : s.phase t = .idle → key.length = RECORD_KEY_SIZE →
      DataFilePage.MAX_RECORD_SIZE < value.length → run exec takeBlobID s.store = some (blobID, store) →
      Step s (.takeBlobID t) (s.goto t store (.inserting ⟨key, value, blobID, none, value⟩))
  | newBlobPage {t w page store} : s.phase t = .inserting w → w.rest ≠ [] →
      run exec newBlobPage s.store = some (page, store) → Step s .other (s.goto t store (.placing w page))
  | write {t w page store} : s.phase t = .placing w page → run exec (w.write page) s.store = some ((), store) →
      Step s .other (s.goto t store (.inserting (w.after page)))
  | letGo {t w first prev store} : s.phase t = .inserting w → w.rest = [] → w.written = some (first, prev) →
      run exec (letGo prev) s.store = some ((), store) → Step s .other (s.goto t store (.raising w first))
  | raiseHead {t w first bytes store} : s.phase t = .raising w first →
      run exec (raiseHead first) s.store = some ((), store) → bytesOf first = some bytes →
      Step s .other { s.goto t store (.inserted w.key bytes) with stored := (w.key, w.value) :: s.stored }
  | insertRecord {t key bytes} : s.phase t = .inserted key bytes →
      Step s .other { s.goto t s.store .idle with live := (key, bytes) :: s.live }
  | getBlob {t key bytes} : s.phase t = .idle → (key, bytes) ∈ s.live →
      Step s .other (s.goto t s.store (getBlobAt key bytes))
  | readHead {t key page p store} : s.phase t = .getting key page → run exec (look page) s.store = some (p, store) →
      Step s .other (s.goto t store (afterHead key p))
  | readNext {t key blobID page blob p store} : s.phase t = .reading key blobID page blob →
      run exec (look page) s.store = some (p, store) → Step s .other (s.goto t store (afterNext key blobID blob p))
  | ret {t key blob} : s.phase t = .returned key blob → Step s .other (s.goto t s.store .idle)
  | removeRecord {t key bytes} : s.phase t = .idle → (key, bytes) ∈ s.live →
      Step s .other { s.goto t s.store (.removing (pageIDOf bytes)) with live := s.live.erase (key, bytes) }
  | readLink {t page p store} : s.phase t = .removing (some page) → run exec (look page) s.store = some (p, store) →
      Step s .other (s.goto t store (.deleting page p.next))
  | deleteBlobPage {t page next b store} : s.phase t = .deleting page next →
      run exec (deleteBlobPage page) s.store = some (b, store) → Step s .other (s.goto t store (.removing next))
  | removed {t} : s.phase t = .removing none → Step s .other (s.goto t s.store .idle)
  | reopen : (∀ t, s.phase t = .idle) → Step s .other { s with store := s.store.reopen.withMember ⟨0⟩ }

/-- A new database. -/
def Init (s : State τ) : Prop := s.store = newDataStore ∧ (∀ t, s.phase t = .idle) ∧ s.live = [] ∧ s.stored = []

/-- No page in use has the id, and no reader goes by it. -/
structure IDFree (s : State τ) (blobID : Nat) : Prop where
  valid : blobID ≠ BlobPage.INVALID_BLOB_ID
  page : ∀ p b, s.store.page (blobKey p) = some (.blob b) → b.isFreePage = false → b.blobID ≠ blobID
  reader : ∀ t key page blob, s.phase t ≠ .reading key blobID page blob

/-- A blob id is not given out while it is in use. -/
def FreshID (s : State τ) : Event τ → Prop
  | .takeBlobID _ => IDFree s (s.store.member.nextBlobID + 1)
  | .other => True

/-! ## The invariant -/

/-- A blob, with its pages so far and the data of each. -/
structure Blob where
  key : List Byte
  value : List Byte
  pages : List (Nat × List Byte)
  done : Bool

/-- Page `p` is the blob's page at place `j`. -/
def Holds (X : Blob) (i j p : Nat) (b : BlobPage) : Prop :=
  i ≠ BlobPage.INVALID_BLOB_ID ∧ ∃ data, X.pages[j]? = some (p, data) ∧ b.next = (X.pages[j + 1]?).map Prod.fst ∧
    if j = 0 then HeadPage b X.done i X.key data else TailPage b i data

/-- The pages from place `j` on are there. -/
def Present (s : DataStore) (X : Blob) (i j : Nat) : Prop :=
  ∀ l p data, j ≤ l → X.pages[l]? = some (p, data) → ∃ b, s.page (blobKey p) = some (.blob b) ∧ Holds X i l p b

inductive Owner (τ : Type)
  | thread (t : τ)
  | record (blobFirstPageID : List Byte)

/-- What `insertBlob` has written. -/
structure Wrote (s : DataStore) (X : Blob) (w : Insertion) : Prop where
  keySize : w.key.length = RECORD_KEY_SIZE
  key : X.key = w.key
  value : X.value = w.value
  nonempty : w.value ≠ []
  done : X.done = false
  valid : w.blobID ≠ BlobPage.INVALID_BLOB_ID
  split : (X.pages.map Prod.snd).flatten ++ w.rest = w.value
  written : w.written = (X.pages.head?.map Prod.fst).bind fun first => X.pages.getLast?.map fun last => (first, last.1)
  present : Present s X w.blobID 0

/-- What the thread knows of the blobs. `cur i` is the last blob that was given the id
`i`, and `holder i` who may change its pages. -/
def Knows (s : State τ) (cur : Nat → Blob) (holder : Nat → Option (Owner τ)) (t : τ) : Phase → Prop
  | .inserting w => holder w.blobID = some (.thread t) ∧ Wrote s.store (cur w.blobID) w
  | .placing w page => holder w.blobID = some (.thread t) ∧ Wrote s.store (cur w.blobID) w ∧
      ∃ b, s.store.page (blobKey page) = some (.blob b) ∧ NewPage b
  | .raising w first => holder w.blobID = some (.thread t) ∧ Wrote s.store (cur w.blobID) w ∧ w.rest = [] ∧
      ∃ prev, w.written = some (first, prev)
  | .inserted key bytes => ∃ i first, holder i = some (.thread t) ∧ (cur i).done = true ∧ (cur i).key = key ∧
      (cur i).pages.head?.map Prod.fst = some first ∧ bytesOf first = some bytes ∧ Present s.store (cur i) i 0
  | .reading key i page blob => i ≠ BlobPage.INVALID_BLOB_ID ∧ (cur i).done = true ∧ (cur i).key = key ∧ ∃ j data,
      j ≠ 0 ∧ (cur i).pages[j]? = some (page, data) ∧ (((cur i).pages.take j).map Prod.snd).flatten = blob
  | .returned key blob => ∀ v, blob = some v → (key, v) ∈ s.stored
  | .removing (some page) => ∃ i j data, holder i = some (.thread t) ∧ (cur i).pages[j]? = some (page, data) ∧
      Present s.store (cur i) i j
  | .deleting page next => ∃ i j data, holder i = some (.thread t) ∧ (cur i).pages[j]? = some (page, data) ∧
      next = ((cur i).pages[j + 1]?).map Prod.fst ∧ Present s.store (cur i) i j
  | _ => True

/-- A record that is a blob: the blob is there. -/
def Record (s : State τ) (cur : Nat → Blob) (holder : Nat → Option (Owner τ)) (r : List Byte × List Byte) : Prop :=
  ∃ i first, holder i = some (.record r.2) ∧ (cur i).done = true ∧ (cur i).key = r.1 ∧
    (cur i).pages.head?.map Prod.fst = some first ∧ bytesOf first = some r.2 ∧ Present s.store (cur i) i 0

/-- The page that a thread has latched between two steps. -/
def Phase.latched : Phase → Option Nat
  | .inserting w | .placing w _ => w.written.map Prod.snd
  | _ => none

/-- The id of the blob that it is inserting. -/
def Phase.drawn : Phase → Option Nat
  | .inserting w | .placing w _ | .raising w _ => some w.blobID
  | _ => none

structure Inv (s : State τ) (cur : Nat → Blob) (holder : Nat → Option (Owner τ)) (used free : List Nat) (N : Nat) :
    Prop where
  alloc : BlobAlloc s.store used free N
  content : ∀ p ∈ used, ∃ b, s.store.page (blobKey p) = some (.blob b) ∧
    (NewPage b ∨ ∃ j, Holds (cur b.blobID) b.blobID j p b)
  distinct : ∀ i, ((cur i).pages.map Prod.fst).Nodup
  complete : ∀ i, (cur i).done = true → ((cur i).pages.map Prod.snd).flatten = (cur i).value ∧
    ((cur i).key, (cur i).value) ∈ s.stored
  latch : ∀ p, s.store.latch (blobKey p) = .reading 0 ∨ ∃ t, (s.phase t).latched = some p
  knows : ∀ t, Knows s cur holder t (s.phase t)
  placed : ∀ t u w w' p, s.phase t = .placing w p → s.phase u = .placing w' p → t = u
  drawn : ∀ t i, (s.phase t).drawn = some i → i ≤ s.store.member.nextBlobID
  live : ∀ r ∈ s.live, Record s cur holder r
  records : (s.live.map Prod.snd).Nodup

/-! ## Pages of a blob -/

namespace Holds

variable {X : Blob} {i j p : Nat} {b : BlobPage}

theorem blobID (h : Holds X i j p b) : b.blobID = i := by
  obtain ⟨-, data, -, -, h⟩ := h
  split at h
  · exact h.blobID
  · exact h.blobID

theorem not_free (h : Holds X i j p b) : b.isFreePage = false := by
  obtain ⟨-, data, -, -, h⟩ := h
  split at h
  · exact h.not_free
  · exact h.not_free

theorem not_new (h : Holds X i j p b) : ¬ NewPage b := fun hnew => h.1 (h.blobID.symm.trans hnew.blobID)

end Holds

variable {s s' : State τ} {cur cur' : Nat → Blob} {holder holder' : Nat → Option (Owner τ)} {used free : List Nat} {N i : Nat}
  {st st' : DataStore} {X : Blob} {t u : τ}

theorem Present.frame {j : Nat} (h : Present st X i j)
    (hpage : ∀ p b, st.page (blobKey p) = some (.blob b) → b.isFreePage = false → ¬ NewPage b → b.blobID = i →
      st'.page (blobKey p) = st.page (blobKey p)) : Present st' X i j := by
  intro l p data hl hp
  obtain ⟨b, hb, hh⟩ := h l p data hl hp
  exact ⟨b, (hpage p b hb hh.not_free hh.not_new hh.blobID).trans hb, hh⟩

theorem Present.mono {j l : Nat} (h : Present st X i j) (hl : j ≤ l) : Present st X i l :=
  fun k p data hk => h k p data (hl.trans hk)

theorem Wrote.frame {w : Insertion} (h : Wrote st X w)
    (hpage : ∀ p b, st.page (blobKey p) = some (.blob b) → b.isFreePage = false → ¬ NewPage b → b.blobID = w.blobID →
      st'.page (blobKey p) = st.page (blobKey p)) : Wrote st' X w :=
  { h with present := h.present.frame hpage }

/-- The id is on a page, or was drawn. -/
def InUse (s : State τ) (k : Nat) : Prop :=
  (∃ u, (s.phase u).drawn = some k) ∨
  ∃ p b, s.store.page (blobKey p) = some (.blob b) ∧ b.isFreePage = false ∧ b.blobID = k

theorem Present.inUse {j p : Nat} {data : List Byte} (h : Present s.store X i j) (hp : X.pages[j]? = some (p, data)) :
    InUse s i := by
  obtain ⟨b, hb, hh⟩ := h j p data le_rfl hp
  exact .inr ⟨p, b, hb, hh.not_free, hh.blobID⟩

/-- A step of thread `t` on the blob `i` of the owner `o`: it changes pages of the blob
and perhaps a new page. -/
structure Frame (s s' : State τ) (cur cur' : Nat → Blob) (holder holder' : Nat → Option (Owner τ))
    (i : Nat) (o : Owner τ)
    (mine : Option Nat) : Prop where
  valid : i ≠ BlobPage.INVALID_BLOB_ID
  kept : ∀ k, k ≠ i → cur' k = cur k
  held : ∀ k, k ≠ i → holder' k = holder k
  page : ∀ p b, s.store.page (blobKey p) = some (.blob b) → b.isFreePage = false → b.blobID ≠ i → mine ≠ some p →
    s'.store.page (blobKey p) = s.store.page (blobKey p)
  mine : ∀ p, mine = some p → ∃ b, s.store.page (blobKey p) = some (.blob b) ∧ NewPage b
  reader : ∀ u key page blob, s.phase u = .reading key i page blob → cur' i = cur i
  apart : ∀ o' k, holder k = some o' → o' ≠ o → InUse s k → k ≠ i
  stored : ∀ r ∈ s.stored, r ∈ s'.stored

section Frame
variable {o : Owner τ} {mine : Option Nat} (f : Frame s s' cur cur' holder holder' i o mine)
include f

theorem Frame.same {k : Nat} (hk : k ≠ i) {p : Nat} {b : BlobPage} (hb : s.store.page (blobKey p) = some (.blob b))
    (hfree : b.isFreePage = false) (hnew : ¬ NewPage b) (hid : b.blobID = k) :
    s'.store.page (blobKey p) = s.store.page (blobKey p) := by
  refine f.page p b hb hfree (by rwa [hid]) fun hm => ?_
  obtain ⟨b', hb', hnew'⟩ := f.mine p hm
  rw [hb, Option.some.injEq, FilePage.blob.injEq] at hb'
  exact hnew (hb' ▸ hnew')

theorem Frame.present {k j : Nat} (hk : k ≠ i) (h : Present s.store (cur k) k j) : Present s'.store (cur' k) k j := by
  rw [f.kept k hk]
  exact h.frame fun p b hb hfree hnew hid => f.same hk hb hfree hnew hid

theorem Frame.wrote {w : Insertion} (hk : w.blobID ≠ i) (h : Wrote s.store (cur w.blobID) w) :
    Wrote s'.store (cur' w.blobID) w := by
  rw [f.kept _ hk]
  exact h.frame fun p b hb hfree hnew hid => f.same hk hb hfree hnew hid

/-- What other threads know stays. -/
theorem Frame.knows (hu : .thread u ≠ o) (h : Knows s cur holder u (s.phase u))
    (hplaced : ∀ w p, s.phase u = .placing w p → mine ≠ some p) : Knows s' cur' holder' u (s.phase u) := by
  have hdrawn : ∀ k, holder k = some (.thread u) → (s.phase u).drawn = some k → k ≠ i := fun k hk hd =>
    f.apart _ k hk hu (.inl ⟨u, hd⟩)
  have hreader := f.reader u
  generalize hx : s.phase u = x at h hplaced hdrawn hreader
  -- what a thread knows is about a blob that it holds, and the step is on another one
  cases x with
  | idle => trivial
  | inserting w =>
    obtain ⟨hh, hw⟩ := h
    have hk := hdrawn _ hh rfl
    exact ⟨by rwa [f.held _ hk], f.wrote hk hw⟩
  | placing w page =>
    obtain ⟨hh, hw, b, hb, hnew⟩ := h
    have hk := hdrawn _ hh rfl
    refine ⟨by rwa [f.held _ hk], f.wrote hk hw, b, ?_, hnew⟩
    rw [f.page page b hb hnew.not_free (by rw [hnew.blobID]; exact f.valid.symm) (hplaced w page rfl), hb]
  | raising w first =>
    obtain ⟨hh, hw, hrest⟩ := h
    have hk := hdrawn _ hh rfl
    exact ⟨by rwa [f.held _ hk], f.wrote hk hw, hrest⟩
  | inserted key bytes =>
    obtain ⟨k, first, hh, hdone, hkey, hfirst, hbytes, hp⟩ := h
    have hk : k ≠ i := by
      obtain ⟨⟨p, data⟩, hhead, rfl⟩ := Option.map_eq_some_iff.1 hfirst
      rw [List.head?_eq_getElem?] at hhead
      exact f.apart _ k hh hu (hp.inUse hhead)
    refine ⟨k, first, by rwa [f.held k hk], ?_, ?_, ?_, hbytes, f.present hk hp⟩ <;> rwa [f.kept k hk]
  | getting key page => trivial
  | reading key k page blob =>
    obtain ⟨hvalid, hdone, hkey, j, data, hj, hpage, hblob⟩ := h
    -- a reader holds no blob: its blob may be the one of the step, with its pages kept
    have hcur : cur' k = cur k := by
      by_cases hk : k = i
      · subst hk
        exact hreader key page blob rfl
      · exact f.kept k hk
    refine ⟨hvalid, ?_, ?_, j, data, hj, ?_, ?_⟩ <;> rwa [hcur]
  | returned key blob => exact fun v hv => f.stored _ (h v hv)
  | removing page =>
    cases page with
    | none => trivial
    | some page =>
      obtain ⟨k, j, data, hh, hpage, hp⟩ := h
      have hk := f.apart _ k hh hu (hp.inUse hpage)
      exact ⟨k, j, data, by rwa [f.held k hk], by rwa [f.kept k hk], f.present hk hp⟩
  | deleting page next =>
    obtain ⟨k, j, data, hh, hpage, hnext, hp⟩ := h
    have hk := f.apart _ k hh hu (hp.inUse hpage)
    exact ⟨k, j, data, by rwa [f.held k hk], by rwa [f.kept k hk], by rwa [f.kept k hk], f.present hk hp⟩

theorem Frame.record {r : List Byte × List Byte} (hr : .record r.2 ≠ o) (h : Record s cur holder r) :
    Record s' cur' holder' r := by
  obtain ⟨k, first, hh, hdone, hkey, hfirst, hbytes, hp⟩ := h
  have hk : k ≠ i := by
    obtain ⟨⟨p, data⟩, hhead, rfl⟩ := Option.map_eq_some_iff.1 hfirst
    rw [List.head?_eq_getElem?] at hhead
    exact f.apart _ k hh hr (hp.inUse hhead)
  refine ⟨k, first, by rwa [f.held k hk], ?_, ?_, ?_, hbytes, f.present hk hp⟩ <;> rwa [f.kept k hk]

end Frame

/-! ## One step -/

/-- A step of thread `t` that leaves it in phase `x`. -/
theorem Inv.step_frame [DecidableEq τ] (h : Inv s cur holder used free N) {o : Owner τ} {m : Option Nat} {x : Phase}
    {used' free' : List Nat} {N' : Nat} (f : Frame s s' cur cur' holder holder' i o m)
    (hphase : s'.phase = Function.update s.phase t x) (ho : ∀ u, u ≠ t → .thread u ≠ o)
    (hmine : ∀ u w p, u ≠ t → s.phase u = .placing w p → m ≠ some p) (halloc : BlobAlloc s'.store used' free' N')
    (hcontent : ∀ p ∈ used', (p ∈ used ∧ s'.store.page (blobKey p) = s.store.page (blobKey p) ∧
        ∀ b, s.store.page (blobKey p) = some (.blob b) → cur' b.blobID = cur b.blobID) ∨
      ∃ b, s'.store.page (blobKey p) = some (.blob b) ∧ (NewPage b ∨ ∃ j, Holds (cur' b.blobID) b.blobID j p b))
    (hdistinct : ((cur' i).pages.map Prod.fst).Nodup)
    (hcomplete : (cur' i).done = true → ((cur' i).pages.map Prod.snd).flatten = (cur' i).value ∧
      ((cur' i).key, (cur' i).value) ∈ s'.stored)
    (hlatch : ∀ p, s'.store.latch (blobKey p) = .reading 0 ∨ ∃ u, (s'.phase u).latched = some p)
    (hknows : Knows s' cur' holder' t x) (hplaced : ∀ w p, x = .placing w p → p ∉ used)
    (hmember : s.store.member.nextBlobID ≤ s'.store.member.nextBlobID)
    (hdrawn : ∀ k, x.drawn = some k → k ≤ s'.store.member.nextBlobID)
    (hlive : ∀ r ∈ s'.live, (r ∈ s.live ∧ .record r.2 ≠ o) ∨ Record s' cur' holder' r)
    (hrecords : (s'.live.map Prod.snd).Nodup) : Inv s' cur' holder' used' free' N' := by
  have hself : s'.phase t = x := by rw [hphase, Function.update_self]
  have hother : ∀ u, u ≠ t → s'.phase u = s.phase u := fun u hu => by rw [hphase, Function.update_of_ne hu]
  -- the page that another thread is placing is in use
  have hinuse : ∀ u w p, s.phase u = .placing w p → p ∈ used := fun u w p hu => by
    have hk := h.knows u
    rw [hu] at hk
    obtain ⟨-, -, b, hb, hnew⟩ := hk
    exact h.alloc.mem_used hb hnew.not_free
  refine ⟨halloc, fun p hp => ?_, fun k => ?_, fun k hk => ?_, hlatch, fun u => ?_, fun u v w w' p hu hv => ?_,
    fun u k hk => ?_,
    fun r hr => ?_, hrecords⟩
  · rcases hcontent p hp with ⟨hused, hsame, hcur⟩ | hnew
    · obtain ⟨b, hb, hc⟩ := h.content p hused
      refine ⟨b, hsame.trans hb, ?_⟩
      rwa [hcur b hb]
    · exact hnew
  · by_cases hk : k = i
    · exact hk ▸ hdistinct
    · rw [f.kept k hk]
      exact h.distinct k
  · by_cases hki : k = i
    · subst hki
      exact hcomplete hk
    · rw [f.kept k hki] at hk ⊢
      exact (h.complete k hk).imp_right (f.stored _)
  · by_cases hu : u = t
    · subst hu
      rwa [hself]
    · rw [hother u hu]
      exact f.knows (ho u hu) (h.knows u) fun w p => hmine u w p hu
  · by_cases hut : u = t
    · by_cases hvt : v = t
      · exact hut.trans hvt.symm
      · subst hut
        rw [hself] at hu
        rw [hother v hvt] at hv
        exact absurd (hinuse v w' p hv) (hplaced w p hu)
    · rw [hother u hut] at hu
      by_cases hvt : v = t
      · subst hvt
        rw [hself] at hv
        exact absurd (hinuse u w p hu) (hplaced w' p hv)
      · rw [hother v hvt] at hv
        exact h.placed u v w w' p hu hv
  · by_cases hut : u = t
    · subst hut
      rw [hself] at hk
      exact hdrawn k hk
    · rw [hother u hut] at hk
      exact (h.drawn u k hk).trans hmember
  · rcases hlive r hr with ⟨hold, hne⟩ | hnew
    · exact f.record hne (h.live r hold)
    · exact hnew

/-- What a thread knows is about the pages and the history. -/
theorem Knows.congr (hpage : s'.store.page = s.store.page) (hstored : s'.stored = s.stored) {x : Phase}
    (h : Knows s cur holder u x) : Knows s' cur holder u x := by
  have hp : ∀ {k j}, Present s.store (cur k) k j → Present s'.store (cur k) k j := fun hp =>
    hp.frame fun p b _ _ _ _ => by rw [hpage]
  have hw : ∀ {w : Insertion}, Wrote s.store (cur w.blobID) w → Wrote s'.store (cur w.blobID) w := fun hw =>
    hw.frame fun p b _ _ _ _ => by rw [hpage]
  cases x with
  | idle => trivial
  | inserting w => exact ⟨h.1, hw h.2⟩
  | placing w page =>
    obtain ⟨hh, hwrote, b, hb, hnew⟩ := h
    exact ⟨hh, hw hwrote, b, by rw [hpage, hb], hnew⟩
  | raising w first => exact ⟨h.1, hw h.2.1, h.2.2⟩
  | inserted key bytes =>
    obtain ⟨k, first, hh, hdone, hkey, hfirst, hbytes, hpres⟩ := h
    exact ⟨k, first, hh, hdone, hkey, hfirst, hbytes, hp hpres⟩
  | getting key page => trivial
  | reading key k page blob => exact h
  | returned key blob => exact fun v hv => hstored ▸ h v hv
  | removing page =>
    cases page with
    | none => trivial
    | some page =>
      obtain ⟨k, j, data, hh, hpg, hpres⟩ := h
      exact ⟨k, j, data, hh, hpg, hp hpres⟩
  | deleting page next =>
    obtain ⟨k, j, data, hh, hpg, hnext, hpres⟩ := h
    exact ⟨k, j, data, hh, hpg, hnext, hp hpres⟩

theorem Record.congr (hpage : s'.store.page = s.store.page) {r : List Byte × List Byte} (h : Record s cur holder r) :
    Record s' cur holder r := by
  obtain ⟨k, first, hh, hdone, hkey, hfirst, hbytes, hpres⟩ := h
  exact ⟨k, first, hh, hdone, hkey, hfirst, hbytes, hpres.frame fun p b _ _ _ _ => by rw [hpage]⟩

variable [DecidableEq τ]

/-- Thread `t` lets the latch that it has go, or takes one. -/
theorem Inv.latch_moved (h : Inv s cur holder used free N) {x : Phase} (hphase : s'.phase = Function.update s.phase t x)
    (hkept : ∀ p, x.latched ≠ some p → (s.phase t).latched ≠ some p →
    s'.store.latch (blobKey p) = s.store.latch (blobKey p))
    (hgone : ∀ p, x.latched ≠ some p → (s.phase t).latched = some p → s'.store.latch (blobKey p) = .reading 0)
    (p : Nat) :
    s'.store.latch (blobKey p) = .reading 0 ∨ ∃ u, (s'.phase u).latched = some p := by
  by_cases hx : x.latched = some p
  · exact .inr ⟨t, by rwa [hphase, Function.update_self]⟩
  by_cases ht : (s.phase t).latched = some p
  · exact .inl (hgone p hx ht)
  rcases h.latch p with hl | ⟨u, hu⟩
  · exact .inl ((hkept p hx ht).trans hl)
  · have hut : u ≠ t := by
      rintro rfl
      exact ht hu
    exact .inr ⟨u, by rwa [hphase, Function.update_of_ne hut]⟩

/-- The latches stay, and thread `t` keeps the one it has. -/
theorem Inv.latch_kept (h : Inv s cur holder used free N) {x : Phase} (hphase : s'.phase = Function.update s.phase t x)
    (hlatch : s'.store.latch = s.store.latch) (hx : (s.phase t).latched = none ∨ (s.phase t).latched = x.latched)
    (p : Nat) :
    s'.store.latch (blobKey p) = .reading 0 ∨ ∃ u, (s'.phase u).latched = some p := by
  refine h.latch_moved hphase (fun p _ _ => congrFun hlatch _) (fun p hxp htp => ?_) p
  rcases hx with hx | hx
  · rw [hx] at htp
    cases htp
  · exact absurd (hx.symm.trans htp) hxp

/-- A step of thread `t` that changes nothing but where it stands. -/
theorem Inv.goto (h : Inv s cur holder used free N) {x : Phase} (hpage : st.page = s.store.page)
    (hmember : st.member = s.store.member)
    (hlatch : ∀ p, (s.goto t st x).store.latch (blobKey p) = .reading 0 ∨
    ∃ u, ((s.goto t st x).phase u).latched = some p)
    (hplacing : ∀ w p, x ≠ .placing w p) (hdrawn : ∀ k, x.drawn = some k → (s.phase t).drawn = some k)
    (hknows : Knows s cur holder t x) : Inv (s.goto t st x) cur holder used free N := by
  have hpage' : (s.goto t st x).store.page = s.store.page := hpage
  have hself : (s.goto t st x).phase t = x := Function.update_self ..
  have hother : ∀ u, u ≠ t → (s.goto t st x).phase u = s.phase u := fun u hu => Function.update_of_ne hu ..
  have hplaced : ∀ u w p, (s.goto t st x).phase u = .placing w p → s.phase u = .placing w p := fun u w p hu => by
    by_cases hut : u = t
    · subst hut
      rw [hself] at hu
      exact absurd hu (hplacing w p)
    · rwa [hother u hut] at hu
  refine ⟨h.alloc.frame_all fun p => congrFun hpage _, fun p hp => ?_, h.distinct, h.complete, hlatch, fun u => ?_,
    fun u v w w' p hu hv => h.placed u v w w' p (hplaced u w p hu) (hplaced v w' p hv), fun u k hk => ?_,
    fun r hr => (h.live r hr).congr hpage', h.records⟩
  · obtain ⟨b, hb, hc⟩ := h.content p hp
    exact ⟨b, (congrFun hpage _).trans hb, hc⟩
  · by_cases hut : u = t
    · subst hut
      rw [hself]
      exact hknows.congr hpage' rfl
    · rw [hother u hut]
      exact (h.knows u).congr hpage' rfl
  · show k ≤ st.member.nextBlobID
    rw [hmember]
    by_cases hut : u = t
    · subst hut
      rw [hself] at hk
      exact h.drawn u k (hdrawn k hk)
    · rw [hother u hut] at hk
      exact h.drawn u k hk

/-- The step of a reader, or of a thread between two operations. -/
theorem Inv.pass (h : Inv s cur holder used free N) {x : Phase} (hpage : st.page = s.store.page)
    (hlatch : st.latch = s.store.latch) (hmember : st.member = s.store.member) (hlatched : (s.phase t).latched = none)
    (hdrawn : x.drawn = none) (hknows : Knows s cur holder t x) : Inv (s.goto t st x) cur holder used free N := by
  refine h.goto hpage hmember (h.latch_kept rfl hlatch (.inl hlatched)) ?_ ?_ hknows
  · rintro w p rfl
    cases hdrawn
  · rintro k hk
    rw [hdrawn] at hk
    cases hk

end

end MisakiDB.BlobThreads
