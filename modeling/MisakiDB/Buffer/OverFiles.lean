import MisakiDB.Buffer.PoolClients
import MisakiDB.Store.FileStore
/-!
# The pool over the files' bytes

The pool's other theorems ask of its file store only that it returns for a page what was
last written to it. A `FileStore` does not quite: a write past the end of a file makes the
pages before it readable too, and a read past the end spoils the stream. A pool over
one file does what a pool over another does when every page of the one is in the other
(`Over`), and so the pool serves its clients from the bytes as well, without a read that
fails, and leaves everything in the files when it is destroyed (`served_from_files`).
-/

namespace MisakiDB.BufferPoolManager

open Runs

/-! ## Two files -/

section
variable {κ π Φ Ψ : Type}

/-- The same pool over another file. -/
def withFile (s : BufferPoolManager κ π Φ) (ψ : Ψ) : BufferPoolManager κ π Ψ :=
  ⟨s.poolSize, s.pages, ψ, s.pageTable, s.replacer, s.freeList⟩

/-- Every page of the one file is in the other, and stays there. -/
structure Covers [PageFile Φ κ π] [PageFile Ψ κ π] (R : Ψ → Φ → Prop) : Prop where
  read : ∀ ψ φ k p, R ψ φ → readRawPage φ k = some p → readRawPage ψ k = some p
  write : ∀ ψ φ k p, R ψ φ → R (writeRawPage ψ k p) (writeRawPage φ k p)

def Over (R : Ψ → Φ → Prop) (s' : BufferPoolManager κ π Ψ) (s : BufferPoolManager κ π Φ) : Prop :=
  ∃ ψ, s' = s.withFile ψ ∧ R ψ s.fileStore

namespace Over
variable {R : Ψ → Φ → Prop} {s' : BufferPoolManager κ π Ψ} {s : BufferPoolManager κ π Φ}

theorem init [Inhabited π] {ψ : Ψ} {φ : Φ} (h : R ψ φ) (n : Nat) :
    Over R (.init n ψ : BufferPoolManager κ π Ψ) (.init n φ) :=
  ⟨ψ, rfl, h⟩

/-- What does not concern the file. -/
theorem map (h : Over R s' s) {t' : BufferPoolManager κ π Ψ} {t : BufferPoolManager κ π Φ}
    (ht : ∀ ψ, s' = s.withFile ψ → t' = t.withFile ψ) (hf : t.fileStore = s.fileStore) : Over R t' t := by
  obtain ⟨ψ, heq, hR⟩ := h
  exact ⟨ψ, ht ψ heq, hf ▸ hR⟩

variable [DecidableEq κ] [PageFile Φ κ π] [PageFile Ψ κ π]

theorem flushPage_helper (hR : Covers R) (h : Over R s' s) (k : κ) :
    (s'.flushPage_helper k).1 = (s.flushPage_helper k).1 ∧
    Over R (s'.flushPage_helper k).2 (s.flushPage_helper k).2 := by
  obtain ⟨ψ, rfl, hψ⟩ := h
  unfold BufferPoolManager.flushPage_helper
  rw [show (s.withFile ψ).fetchExistentPage k = s.fetchExistentPage k from rfl]
  cases s.fetchExistentPage k with
  | none => exact ⟨rfl, ψ, rfl, hψ⟩
  | some f => exact ⟨rfl, _, rfl, hR.write ψ _ k _ hψ⟩

theorem flushAllPages (hR : Covers R) (h : Over R s' s) : Over R s'.flushAllPages s.flushAllPages := by
  have htable : s'.pageTable = s.pageTable := by
    obtain ⟨ψ, rfl, -⟩ := h
    rfl
  unfold BufferPoolManager.flushAllPages
  rw [htable]
  clear htable
  generalize s.pageTable = l
  induction l generalizing s' s with
  | nil => exact h
  | cons e l ih => exact ih (h.flushPage_helper hR e.1).2

omit [DecidableEq κ] in
theorem writeBack (hR : Covers R) (h : Over R s' s) (f : FrameID) : Over R (s'.writeBack f) (s.writeBack f) := by
  obtain ⟨ψ, rfl, hψ⟩ := h
  unfold BufferPoolManager.writeBack
  rw [show (s.withFile ψ).pages f = s.pages f from rfl]
  cases (s.pages f).key with
  | none => exact ⟨ψ, rfl, hψ⟩
  | some k => exact ⟨_, rfl, hR.write ψ _ k _ hψ⟩

theorem evictPage (hR : Covers R) (h : Over R s' s) :
    s'.evictPage.1 = s.evictPage.1 ∧ Over R s'.evictPage.2 s.evictPage.2 := by
  obtain ⟨ψ, rfl, hψ⟩ := h
  unfold BufferPoolManager.evictPage
  rw [show (s.withFile ψ).replacer = s.replacer from rfl]
  cases s.replacer.victim with
  | none => exact ⟨rfl, ψ, rfl, hψ⟩
  | some e =>
    obtain ⟨f, r⟩ := e
    have hover : Over R ({ s.withFile ψ with replacer := r }.eraseEntry ((s.withFile ψ).pages f).key)
        ({ s with replacer := r }.eraseEntry (s.pages f).key) := ⟨ψ, rfl, hψ⟩
    cases hd : (s.pages f).isDirty with
    | false =>
      have hd' : ((s.withFile ψ).pages f).isDirty = false := hd
      simpa only [eraseEntry, hd, hd', Bool.false_eq_true, if_false, true_and] using hover
    | true =>
      have hd' : ((s.withFile ψ).pages f).isDirty = true := hd
      simpa only [eraseEntry, hd, hd', if_true, true_and] using hover.writeBack hR f

theorem getVictimPage (hR : Covers R) (h : Over R s' s) :
    s'.getVictimPage.1 = s.getVictimPage.1 ∧ Over R s'.getVictimPage.2 s.getVictimPage.2 := by
  have hevict := h.evictPage hR
  obtain ⟨ψ, rfl, hψ⟩ := h
  unfold BufferPoolManager.getVictimPage
  rw [show (s.withFile ψ).freeList = s.freeList from rfl]
  cases s.freeList with
  | cons f rest => exact ⟨rfl, ψ, rfl, hψ⟩
  | nil => exact hevict

theorem loadPage (hR : Covers R) (h : Over R s' s) {k : κ} {f : FrameID} (hread : (readRawPage s.fileStore k).isSome) :
    (s'.loadPage k f).1 = (s.loadPage k f).1 ∧ Over R (s'.loadPage k f).2 (s.loadPage k f).2 := by
  obtain ⟨ψ, rfl, hψ⟩ := h
  obtain ⟨p, hp⟩ := Option.isSome_iff_exists.1 hread
  have hp' : readRawPage (s.withFile ψ).fileStore k = some p := hR.read ψ _ k p hψ hp
  rw [loadPage_result, loadPage_result, loadPage_state, loadPage_state, hp, hp']
  exact ⟨rfl, ψ, rfl, hψ⟩

theorem newPage [Inhabited π] (hR : Covers R) (h : Over R s' s) (k : κ) (f : FrameID) :
    Over R (s'.newPage k f) (s.newPage k f) := by
  obtain ⟨ψ, rfl, hψ⟩ := h
  rw [newPage_state, newPage_state]
  exact ⟨_, rfl, hR.write ψ _ k _ hψ⟩

omit [DecidableEq κ] [PageFile Φ κ π] [PageFile Ψ κ π] in
theorem pinResident (h : Over R s' s) (f : FrameID) : Over R (s'.pinResident f) (s.pinResident f) := by
  obtain ⟨ψ, rfl, hψ⟩ := h
  unfold BufferPoolManager.pinResident
  rw [show (s.withFile ψ).pages f = s.pages f from rfl]
  by_cases hp : (s.pages f).pinCount = 0
  · simp only [hp, if_true]
    exact ⟨ψ, rfl, hψ⟩
  · simp only [hp, if_false]
    exact ⟨ψ, rfl, hψ⟩

omit [PageFile Φ κ π] [PageFile Ψ κ π] in
theorem unpinPage (h : Over R s' s) (k : κ) (d : Bool) :
    (s'.unpinPage k d).1 = (s.unpinPage k d).1 ∧ Over R (s'.unpinPage k d).2 (s.unpinPage k d).2 := by
  obtain ⟨ψ, rfl, hψ⟩ := h
  unfold BufferPoolManager.unpinPage
  rw [show (s.withFile ψ).fetchExistentPage k = s.fetchExistentPage k from rfl]
  cases s.fetchExistentPage k with
  | none => exact ⟨rfl, ψ, rfl, hψ⟩
  | some f =>
    have hpage : (s.withFile ψ).pages f = s.pages f := rfl
    by_cases hp : (s.pages f).pinCount = 0
    · simp only [hpage, hp, if_true]
      exact ⟨trivial, ψ, rfl, hψ⟩
    · by_cases hp1 : (s.pages f).pinCount - 1 = 0
      · simp only [hpage, hp, if_false, hp1, if_true]
        exact ⟨trivial, ψ, rfl, hψ⟩
      · simp only [hpage, hp, if_false, hp1]
        exact ⟨trivial, ψ, rfl, hψ⟩

omit [DecidableEq κ] [PageFile Φ κ π] [PageFile Ψ κ π] in
theorem writeData (h : Over R s' s) (f : FrameID) (data : π) : Over R (s'.writeData f data) (s.writeData f data) := by
  obtain ⟨ψ, rfl, hψ⟩ := h
  exact ⟨ψ, rfl, hψ⟩

theorem appendNewPage [Inhabited π] (hR : Covers R) (h : Over R s' s) (k : κ) :
    (s'.appendNewPage k).1 = (s.appendNewPage k).1 ∧ Over R (s'.appendNewPage k).2 (s.appendNewPage k).2 := by
  obtain ⟨hout, hover⟩ := h.getVictimPage hR
  unfold BufferPoolManager.appendNewPage
  rcases hg : s.getVictimPage with ⟨_ | f, t⟩ <;> rcases hg' : s'.getVictimPage with ⟨_ | f', t'⟩ <;>
    rw [hg, hg'] at hout hover
  · exact ⟨rfl, hover⟩
  · cases hout
  · cases hout
  · obtain rfl := Option.some.inj hout
    exact ⟨rfl, hover.newPage hR k f'⟩

/-- A fetch that does not throw over the one file does the same over the other. -/
theorem fetchPage (hR : Covers R) (h : Over R s' s) {k : κ} (hk : (s.fetchPage k).1 ≠ .threw) :
    (s'.fetchPage k).1 = (s.fetchPage k).1 ∧ Over R (s'.fetchPage k).2 (s.fetchPage k).2 := by
  obtain ⟨hout, hover⟩ := h.getVictimPage hR
  have hfind : s'.fetchExistentPage k = s.fetchExistentPage k := by
    obtain ⟨ψ, rfl, -⟩ := h
    rfl
  unfold BufferPoolManager.fetchPage at hk ⊢
  rw [hfind]
  cases hf : s.fetchExistentPage k with
  | some f => exact ⟨rfl, h.pinResident f⟩
  | none =>
    rw [hf] at hk
    rcases hg : s.getVictimPage with ⟨_ | f, t⟩ <;> rcases hg' : s'.getVictimPage with ⟨_ | f', t'⟩ <;>
      rw [hg, hg'] at hout hover
    · exact ⟨rfl, hover⟩
    · cases hout
    · cases hout
    · obtain rfl := Option.some.inj hout
      rw [hg] at hk
      apply hover.loadPage hR
      by_contra hno
      exact hk (by simp only [loadPage_result, if_neg hno])

end Over

variable [DecidableEq κ] [PageFile Φ κ π] [PageFile Ψ κ π] {R : Ψ → Φ → Prop}

/-- A call over the one file, over the other. -/
theorem Over.step [Inhabited π] [LawfulPageFile Φ κ π] (hR : Covers R) {s' t' : BufferPoolManager κ π Ψ}
    {s : BufferPoolManager κ π Φ}
    {c d : Clients κ π} {e : Call κ π} (h : Over R s' s) (hs : Tracks s c) (hstep : Step (s', c) e (t', d)) :
    ∃ t, Step (s, c) e (t, d) ∧ Over R t' t := by
  cases hstep with
  | fetch _ _ k hk =>
    obtain ⟨hres, hover⟩ := h.fetchPage hR (hs.fetch hk).2.2.1
    refine ⟨_, ?_, hover⟩
    rw [hres]
    exact .fetch s c k hk
  | append _ _ k hk =>
    obtain ⟨hres, hover⟩ := h.appendNewPage hR k
    refine ⟨_, ?_, hover⟩
    rw [hres]
    exact .append s c k hk
  | unpin _ _ pre p post d hp hd => exact ⟨_, .unpin s c pre p post d hp hd, (h.unpinPage p.key d).2⟩
  | unpinFree _ _ k d hk => exact ⟨_, .unpinFree s c k d hk, (h.unpinPage k d).2⟩
  | flush _ _ k => exact ⟨_, .flush s c k, (h.flushPage_helper hR k).2⟩
  | write _ _ pre p post data hp => exact ⟨_, .write s c pre p post data hp, h.writeData p.frame data⟩

/-! ## When the pool is destroyed -/

theorem flushPage_helper_resident {s : BufferPoolManager κ π Φ} (h : Inv s) {k : κ} {f : FrameID}
    (hk : (k, f) ∈ s.pageTable) :
    Inv (s.flushPage_helper k).2 ∧ (s.flushPage_helper k).2.pageTable = s.pageTable ∧
      (∀ g, ((s.flushPage_helper k).2.pages g).data = (s.pages g).data) ∧
      (s.flushPage_helper k).2.fileStore = writeRawPage s.fileStore k (s.pages f).data := by
  unfold flushPage_helper
  rw [(h.find k f).2 hk]
  exact ⟨(h.setPage f { s.pages f with isDirty := false } rfl rfl (fun _ => rfl)).setFile _, rfl,
    fun g => setPage_same s Page.data f g _ rfl, rfl⟩

/-- Resident pages written back, in any order, are in the file as their frames have them,
and nothing else changes there. -/
theorem flush_saves [LawfulPageFile Φ κ π] {s : BufferPoolManager κ π Φ} (h : Inv s)
    {l : List (κ × FrameID)} (hl : l.Nodup)
    (hsub : ∀ e ∈ l, e ∈ s.pageTable) {t : BufferPoolManager κ π Φ}
    (ht : t = l.foldl (fun s e => (s.flushPage_helper e.1).2) s) :
    (∀ e ∈ l, readRawPage t.fileStore e.1 = some (s.pages e.2).data) ∧
      ∀ k, (∀ f, (k, f) ∉ l) → readRawPage t.fileStore k = readRawPage s.fileStore k := by
  subst ht
  induction l generalizing s with
  | nil => exact ⟨fun e he => absurd he List.not_mem_nil, fun _ _ => rfl⟩
  | cons e l ih =>
    obtain ⟨hnot, hnd⟩ := List.nodup_cons.1 hl
    have he := hsub e List.mem_cons_self
    obtain ⟨hinv, htable, hdata, hfile⟩ := flushPage_helper_resident h he
    obtain ⟨hin, hout⟩ := ih hinv hnd fun e' he' => htable ▸ hsub e' (List.mem_cons_of_mem _ he')
    refine ⟨fun e' he' => ?_, fun k hk => ?_⟩
    · rcases List.mem_cons.1 he' with rfl | he'
      · -- the rest of the list does not name the page again
        have hlast : ∀ f, (e'.1, f) ∉ l := by
          intro f hf
          obtain rfl := h.frame_inj (hsub _ (List.mem_cons_of_mem _ hf)) he
          exact hnot hf
        apply (hout e'.1 hlast).trans
        rw [hfile, LawfulPageFile.read_write_self]
      · exact (hin e' he').trans (congrArg some (hdata e'.2))
    · apply (hout k fun f hf => hk f (List.mem_cons_of_mem _ hf)).trans
      rw [hfile, LawfulPageFile.read_write_ne]
      rintro rfl
      exact hk e.2 List.mem_cons_self

/-- The destructor leaves in the file what the clients wrote. -/
theorem Tracks.flushAllPages [LawfulPageFile Φ κ π] {s : BufferPoolManager κ π Φ} {c : Clients κ π}
    (h : Tracks s c) (k : κ) :
    readRawPage s.flushAllPages.fileStore k = c.content k := by
  obtain ⟨hin, hout⟩ := flush_saves h.inv (List.Nodup.of_map _ h.inv.keys_nodup) (fun _ he => he) rfl
  rw [h.content]
  by_cases hk : ∃ f, (k, f) ∈ s.pageTable
  · obtain ⟨f, hf⟩ := hk
    exact (hin _ hf).trans (current_resident h.inv hf).symm
  · have habs : ∀ f, (k, f) ∉ s.pageTable := fun f hf => hk ⟨f, hf⟩
    exact (hout k habs).trans (current_absent h.inv habs).symm

variable [Inhabited π]

/-- A call, or the pool is destroyed and made anew, of any size. -/
inductive Lives : BufferPoolManager κ π Φ × Clients κ π → Option (Call κ π) →
    BufferPoolManager κ π Φ × Clients κ π → Prop
  | call {x e y} : Step x e y → Lives x (some e) y
  | reopen (s c n) : Lives (s, c) none (init n s.flushAllPages.fileStore, ⟨c.content, fun _ => False, []⟩)

/-- A pool over the one file serves its clients as a pool over the other does. -/
def Serves (R : Ψ → Φ → Prop) (x : BufferPoolManager κ π Ψ × Clients κ π) : Prop := ∃ s, Tracks s x.2 ∧ Over R x.1 s

theorem Serves.start [LawfulPageFile Φ κ π] {ψ : Ψ} {φ : Φ} (h : R ψ φ)
    (hsame : ∀ k, readRawPage ψ k = readRawPage φ k) (n : Nat) :
    Serves R (init n ψ, (.start ψ : Clients κ π)) := by
  refine ⟨init n φ, ?_, .init h n⟩
  rw [Clients.start, funext hsame]
  exact tracks_start n φ

theorem Serves.step [LawfulPageFile Φ κ π] (hR : Covers R) {x y : BufferPoolManager κ π Ψ × Clients κ π}
    {e : Option (Call κ π)} (h : Serves R x) (hstep : Lives x e y) : Serves R y := by
  obtain ⟨s, hs, hover⟩ := h
  cases hstep with
  | call hstep =>
    obtain ⟨t, ht, hover'⟩ := hover.step hR hs hstep
    exact ⟨t, (hs.step ht).1, hover'⟩
  | reopen s' c n =>
    obtain ⟨ψ, hψ, hfile⟩ := hover.flushAllPages hR
    refine ⟨init n s.flushAllPages.fileStore, ?_, hψ ▸ .init hfile n⟩
    have hcontent : c.content = readRawPage s.flushAllPages.fileStore := funext fun k => (hs.flushAllPages k).symm
    rw [hcontent]
    exact tracks_start n _

end

/-! ## The four files -/

/-- A file store whose pages are named by the ids in `S`. -/
structure StoreOn (S : Set (BitVec 32)) where
  store : FileStore

abbrev StoreKey (S : Set (BitVec 32)) := { k : FileType × BitVec 32 // k.1 ≠ .INVALID ∧ k.2 ∈ S }

section
variable {S : Set (BitVec 32)}

/-- A read that gives the page leaves the store as it is: `readRawPage_keeps`. -/
instance : PageFile (StoreOn S) (StoreKey S) RawPage where
  readRawPage φ k := (φ.store.readRawPage k.1.1 k.1.2).1
  writeRawPage φ k raw := ⟨(φ.store.writeRawPage k.1.1 k.1.2 raw).getD φ.store⟩

theorem stream_keeps {f : FStream} {offset : Nat} {raw : RawPage} (h : (f.read offset).1 = some raw) :
    (f.read offset).2 = f := by
  unfold FStream.read at h ⊢
  by_cases hfail : f.fail
  · simp [hfail] at h
  · by_cases hsize : offset + PAGE_SIZE ≤ f.size
    · simp only [hfail, hsize, if_true, Bool.false_eq_true, if_false]
    · simp [hfail, hsize] at h

theorem readRawPage_keeps {φ : StoreOn S} {k : StoreKey S} {raw : RawPage} (h : readRawPage φ k = some raw) :
    φ.store.readRawPage k.1.1 k.1.2 = (some raw, φ.store) := by
  obtain ⟨⟨t, p⟩, ht, hp⟩ := k
  change (φ.store.readRawPage t p).1 = some raw at h
  apply Prod.ext h
  rw [FileStore.readRawPage_eq ht] at h
  have hstore : (φ.store.readRawPage t p).2 =
      ⟨Function.update φ.store.file t ((φ.store.file t).read (FileStore.pageIDToOffset p).toNat).2⟩ := by
    cases t <;> first | exact absurd rfl ht | rfl
  rw [hstore, stream_keeps h, Function.update_eq_self]

/-- The pages that can be read in the store at first, and those written since. -/
def Holds (φ : StoreOn S) (m : MemFile (StoreKey S) RawPage) : Prop :=
  φ.store.Healthy ∧ ∀ k raw, m.page k = some raw → readRawPage φ k = some raw

theorem holds_covers (hS : Set.InjOn (fun p : BitVec 32 => p.toNat % 2 ^ 20) S) : Covers (Holds (S := S)) := by
  refine ⟨fun φ m k raw h => h.2 k raw, fun φ m k raw h => ?_⟩
  obtain ⟨hhealthy, hpages⟩ := h
  have hw : φ.store.writeRawPage k.1.1 k.1.2 raw = some (writeRawPage φ k raw).store := by
    change _ = some ((φ.store.writeRawPage k.1.1 k.1.2 raw).getD φ.store)
    rw [FileStore.writeRawPage_eq k.2.1, Option.getD_some]
  refine ⟨hhealthy.write hw, fun q r hq => ?_⟩
  by_cases hqk : q = k
  · subst hqk
    obtain rfl : raw = r := by simpa [writeRawPage] using hq
    exact FileStore.read_write hhealthy q.2.1 hw
  · have hr : m.page q = some r := by simpa [writeRawPage, hqk] using hq
    -- another file, or another offset in this one
    refine FileStore.read_write_other ?_ hw (hpages q r hr)
    by_cases ht : q.1.1 = k.1.1
    · exact .inr fun hmod => hqk (Subtype.ext (Prod.ext ht (hS q.2.2 k.2.2 hmod)))
    · exact .inl ht

/-- With page ids pairwise different modulo `2 ^ 20` and a store no stream of which has
failed: clients that fetch only what exists see for each page what was last written to it,
before or after the pool was last made anew; the reads the pool makes for them all succeed
and leave the streams as they are; and once it is destroyed the files have it all. -/
theorem served_from_files (hS : Set.InjOn (fun p : BitVec 32 => p.toNat % 2 ^ 20) S) {n : Nat} {φ : StoreOn S}
    (hφ : φ.store.Healthy) {s : BufferPoolManager (StoreKey S) RawPage (StoreOn S)} {c : Clients (StoreKey S) RawPage}
    (h : Reach (Start n φ) Lives (s, c)) :
    (∀ k raw, c.content k = some raw →
      (s.fetchPage k).1 ≠ .threw ∧ (∀ f, (s.fetchPage k).1 = .page f → ((s.fetchPage k).2.pages f).data = raw) ∧
      (s.fetchExistentPage k = none → ∀ f t, s.getVictimPage = (some f, t) →
        t.fileStore.store.readRawPage k.1.1 k.1.2 = (some raw, t.fileStore.store))) ∧
    Consistent s ∧
    ∀ k raw, c.content k = some raw → readRawPage s.flushAllPages.fileStore k = some raw := by
  have hcovers := holds_covers hS
  have hserves : Serves (Holds (S := S)) (s, c) := by
    refine h.inv (I := Serves Holds) ?_ fun x e y hx hstep => hx.step hcovers hstep
    rintro _ rfl
    exact Serves.start (R := Holds) (φ := ⟨readRawPage φ⟩) ⟨hφ, fun _ _ h => h⟩ (fun _ => rfl) n
  obtain ⟨m, htracks, hover⟩ := hserves
  have hflush := hover.flushAllPages hcovers
  refine ⟨fun k raw hk => ?_, ?_, fun k raw hk => ?_⟩
  · have hsome : (c.content k).isSome := by simp [hk]
    obtain ⟨-, -, hthrew, hdata⟩ := htracks.fetch hsome
    obtain ⟨hres, hpool⟩ := hover.fetchPage hcovers hthrew
    refine ⟨hres ▸ hthrew, fun f hf => ?_, fun habs f t hg => ?_⟩
    · have hd := hdata f (hres ▸ hf)
      obtain ⟨ψ, hψ, -⟩ := hpool
      rw [hψ]
      exact (Option.some.inj (hk.symm.trans hd)).symm
    · -- the page is read from the store once a frame has been vacated
      obtain ⟨hout, hover'⟩ := hover.getVictimPage hcovers
      rw [hg] at hout hover'
      have hv := getVictimPage_spec htracks.inv
      rcases hgm : m.getVictimPage with ⟨_ | g, m'⟩
      · rw [hgm] at hout
        cases hout
      · rw [hgm] at hv hover'
        have habs' : ∀ f, (k, f) ∉ m'.pageTable := by
          intro f hf
          have hfind : m.fetchExistentPage k = none := by
            obtain ⟨ψ, rfl, -⟩ := hover
            exact habs
          exact (htracks.inv.find_none k).1 hfind f ((hv.table _).1 hf).1
        have hread : readRawPage m'.fileStore k = some raw := by
          rw [← current_absent hv.inv habs', htracks.vacated_content hv, hk]
        obtain ⟨ψ, rfl, hψ⟩ := hover'
        exact readRawPage_keeps (hcovers.read ψ _ k raw hψ hread)
  · obtain ⟨ψ, rfl, -⟩ := hover
    have hc := htracks.inv.consistent
    exact ⟨hc.1, hc.2, hc.3, hc.4, hc.5, hc.6, hc.7⟩
  · obtain ⟨ψ, heq, hψ⟩ := hflush
    rw [heq]
    exact hψ.2 k raw ((htracks.flushAllPages k).trans hk)

/-- Two pages of the index file, over four empty files. -/
def emptyStore : StoreOn {0, 1} := ⟨⟨fun _ => ⟨0, fun _ => 0, false⟩⟩⟩

def headerKey : StoreKey {0, 1} := ⟨(.INDEX, 0), by decide, .inl rfl⟩

/-- The header is appended and written, and read by the next pool. -/
theorem served_from_files_one : ∃ s : BufferPoolManager (StoreKey {0, 1}) RawPage (StoreOn {0, 1}),
    ∃ c : Clients (StoreKey {0, 1}) RawPage, Reach (Start 1 emptyStore) Lives (s, c) ∧
      c.content headerKey = some (fun _ => 1) ∧ (s.fetchPage headerKey).1 ≠ .threw := by
  have h0 : Reach (Start 1 emptyStore) Lives _ := .start rfl
  have h1 := h0.next (.call (.append _ _ headerKey fun h => h))
  have h2 := h1.next (.call (.write _ _ [] ⟨headerKey, 0, false⟩ [] (fun _ => 1) rfl))
  have h3 := h2.next (.reopen _ _ 1)
  have hcontent := Function.update_self headerKey (some fun _ => 1)
    (Clients.appended (.start emptyStore) headerKey (appendNewPage (init 1 emptyStore) headerKey).1).content
  have hS : Set.InjOn (fun p : BitVec 32 => p.toNat % 2 ^ 20) {0, 1} := by
    intro p hp q hq hpq
    rcases hp with rfl | rfl <;> rcases hq with rfl | rfl <;> first | rfl | exact absurd hpq (by decide)
  exact ⟨_, _, h3, hcontent, ((served_from_files hS (fun _ => rfl) h3).1 headerKey _ hcontent).1⟩

end

end MisakiDB.BufferPoolManager
