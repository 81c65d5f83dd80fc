import MisakiDB.Data.GivesBack
import Mathlib.Data.List.Range
/-!
# The blob file

Page ids `1` to `N - 1` are each on the free list or in use (`BlobAlloc`). A chain
holds the value of one blob: `Chain.Stored` says so of its pages, and the
operations on blobs are the specs `insertBlob_spec`, `getBlob_spec` and
`removeBlob_spec`, for calls made one at a time.
-/

namespace MisakiDB.DataAccessor

open Prog PageStore DataFileManager

variable {s s' : DataStore} {used free : List Nat} {N : Nat}

/-! ## Links -/

/-- The pages are linked in this order, and the last one links to none. -/
def Linked (s : DataStore) : List Nat → Prop
  | [] => True
  | x :: rest => (∃ b, s.page (blobKey x) = some (.blob b) ∧ b.next = rest.head?) ∧ Linked s rest

theorem Linked.frame {pages : List Nat} (h : Linked s pages)
    (hp : ∀ x ∈ pages, s'.page (blobKey x) = s.page (blobKey x)) : Linked s' pages := by
  induction pages with
  | nil => trivial
  | cons x rest ih =>
    obtain ⟨⟨b, hb, hnext⟩, hrest⟩ := h
    refine ⟨⟨b, ?_, hnext⟩, ih hrest fun y hy => hp y (List.mem_cons_of_mem _ hy)⟩
    rw [hp x List.mem_cons_self, hb]

/-! ## Which pages are free -/

structure BlobAlloc (s : DataStore) (used free : List Nat) (N : Nat) : Prop where
  header : s.page (blobKey 0) = some (.blobHeader ⟨N, free.head?⟩)
  next_pos : 1 ≤ N
  perm : (used ++ free).Perm (List.range' 1 (N - 1))
  fresh : ∀ x, N ≤ x → s.page (blobKey x) = none
  linked : Linked s free
  isFree : ∀ x ∈ free, ∃ b, s.page (blobKey x) = some (.blob b) ∧ b.isFreePage = true
  isUsed : ∀ x ∈ used, ∃ b, s.page (blobKey x) = some (.blob b) ∧ b.isFreePage = false

namespace BlobAlloc

theorem nodup (ha : BlobAlloc s used free N) : (used ++ free).Nodup := ha.perm.nodup_iff.2 List.nodup_range'

theorem mem_iff (ha : BlobAlloc s used free N) (x : Nat) : x ∈ used ∨ x ∈ free ↔ 1 ≤ x ∧ x < N := by
  have := ha.perm.mem_iff (a := x)
  have hn := ha.next_pos
  rw [List.mem_append, List.mem_range'_1] at this
  rw [this]
  omega

theorem not_mem_free (ha : BlobAlloc s used free N) {x : Nat} (hx : x ∈ used) : x ∉ free :=
  fun hf => (List.nodup_append.1 ha.nodup).2.2 x hx x hf rfl

theorem congr_used (ha : BlobAlloc s used free N) {used' : List Nat} (hu : used'.Perm used) :
    BlobAlloc s used' free N :=
  { ha with
    perm := (hu.append_right free).trans ha.perm
    isUsed := fun x hx => ha.isUsed x (hu.mem_iff.1 hx) }

/-- Pages in use may be written, if not as free pages. -/
theorem frame (ha : BlobAlloc s used free N) (hp : ∀ x, x ∉ used → s'.page (blobKey x) = s.page (blobKey x))
    (hu : ∀ x ∈ used, ∃ b, s'.page (blobKey x) = some (.blob b) ∧ b.isFreePage = false) : BlobAlloc s' used free N := by
  have hfree : ∀ x ∈ free, s'.page (blobKey x) = s.page (blobKey x) := fun x hx =>
    hp x fun hux => ha.not_mem_free hux hx
  refine ⟨?_, ha.next_pos, ha.perm, ?_, ha.linked.frame hfree, ?_, hu⟩
  · rw [hp 0 fun h0 => by have := (ha.mem_iff 0).1 (.inl h0); omega, ha.header]
  · intro x hx
    rw [hp x fun hux => by have := (ha.mem_iff x).1 (.inl hux); omega, ha.fresh x hx]
  · intro x hx
    rw [hfree x hx]
    exact ha.isFree x hx

theorem frame_all (ha : BlobAlloc s used free N) (hp : ∀ x, s'.page (blobKey x) = s.page (blobKey x)) :
    BlobAlloc s' used free N :=
  ha.frame (fun x _ => hp x) fun x hx => by rw [hp x]; exact ha.isUsed x hx

/-- A free page is not a page in use, whatever is left in it. -/
theorem isFreePage_iff (ha : BlobAlloc s used free N) {x : Nat} (h1 : 1 ≤ x) (hN : x < N) :
    ∃ b, s.page (blobKey x) = some (.blob b) ∧ (b.isFreePage = true ↔ x ∈ free) := by
  rcases (ha.mem_iff x).2 ⟨h1, hN⟩ with hx | hx
  · obtain ⟨b, hb, hfree⟩ := ha.isUsed x hx
    exact ⟨b, hb, by simp [hfree, ha.not_mem_free hx]⟩
  · obtain ⟨b, hb, hfree⟩ := ha.isFree x hx
    exact ⟨b, hb, by simp [hfree, hx]⟩

/-- A page of the file that is not free is in use. -/
theorem mem_used (ha : BlobAlloc s used free N) {x : Nat} {b : BlobPage} (hb : s.page (blobKey x) = some (.blob b))
    (hfree : b.isFreePage = false) : x ∈ used := by
  have hx0 : x ≠ 0 := by
    rintro rfl
    rw [ha.header] at hb
    cases hb
  have hxN : x < N := by
    by_contra hge
    rw [ha.fresh x (Nat.not_lt.1 hge)] at hb
    cases hb
  refine ((ha.mem_iff x).2 ⟨Nat.one_le_iff_ne_zero.2 hx0, hxN⟩).resolve_right fun hf => ?_
  obtain ⟨b', hb', hfree'⟩ := ha.isFree x hf
  rw [hb, Option.some.injEq, FilePage.blob.injEq] at hb'
  rw [← hb', hfree] at hfree'
  cases hfree'

/-- Every page was initialised. -/
theorem not_zero (ha : BlobAlloc s used free N) (x : Nat) : s.page (blobKey x) ≠ some .zero := by
  intro hzero
  by_cases hx : 1 ≤ x ∧ x < N
  · obtain ⟨b, hb, -⟩ := ha.isFreePage_iff hx.1 hx.2
    rw [hb] at hzero
    cases hzero
  · by_cases hx0 : x = 0
    · rw [hx0, ha.header] at hzero
      cases hzero
    · rw [ha.fresh x (by omega)] at hzero
      cases hzero

end BlobAlloc

/-- A new file has its header only. -/
theorem newDataStore_blobs : BlobAlloc newDataStore [] [] 1 := by
  refine ⟨by simp [newDataStore], le_rfl, by simp, fun x hx => ?_, trivial, by simp, by simp⟩
  have hx0 : x ≠ 0 := Nat.one_le_iff_ne_zero.1 hx
  simp [newDataStore, hx0]

/-! ## `newBlobPage` and `deleteBlobPage` -/

/-- What `newBlobPage` leaves in the page it gives out. -/
structure NewPage (b : BlobPage) : Prop where
  byte : b.word % 256 = 0
  next : b.next = none
  blobID : b.blobID = BlobPage.INVALID_BLOB_ID

theorem newPage_init (b : BlobPage) : NewPage b.init := ⟨by simp [BlobPage.init], rfl, rfl⟩

theorem NewPage.not_free {b : BlobPage} (h : NewPage b) : b.isFreePage = false :=
  BlobPage.not_free_of_byte (by rw [h.byte]; omega)

theorem newBlobPage_spec (ha : BlobAlloc s used free N) (hlatch : ∀ x, x ∉ used → s.latch (blobKey x) = .reading 0) :
    wp exec newBlobPage (fun q s' => q ∉ used ∧ 1 ≤ q ∧ q ≤ N ∧
      (∃ b, s'.page (blobKey q) = some (.blob b) ∧ NewPage b) ∧
      (∀ k, k ≠ blobKey 0 → k ≠ blobKey q → s'.page k = s.page k) ∧ s'.member = s.member ∧
      ∃ free' N', BlobAlloc s' (q :: used) free' N') s := by
  have h0 : 0 ∉ used := fun h => by have := (ha.mem_iff 0).1 (.inl h); omega
  have hl0 := hlatch 0 h0
  have hn := ha.next_pos
  have hview : pageAs s (blobKey 0) FilePage.asBlobHeader = some ⟨N, free.head?⟩ := by
    rw [pageAs, ha.header]
    rfl
  rcases free with _ | ⟨f, free⟩
  · -- the free list is empty: the file grows by a page
    have hN0 : N ≠ 0 := by omega
    have hNu : N ∉ used := fun h => by have := (ha.mem_iff N).1 (.inl h); omega
    have hlN := hlatch N hNu
    have hfr := ha.fresh N le_rfl
    simp only [newBlobPage, wp_bind, wp_fetchPage, wp_wLatch, wp_getBlobHeader]
    refine ⟨⟨_, ha.header⟩, hl0, _, hview, ?_⟩
    simp only [List.head?_nil, wp_bind, wp_appendNewPage, wp_wLatch, wp_setData, wp_pure, wp_getBlobPage, wp_wUnlatch,
      wp_unpinPage]
    refine ⟨hfr, by simp [hN0, hlN], ⟨.blobHeader ⟨N, none⟩, by simp [hN0.symm, ha.header]⟩, default,
      by simp [pageAs, hN0]; rfl, ⟨.zero, by simp [hN0]; rfl⟩, by simp, by simp [hN0.symm], by simp [hN0.symm], hNu, hn,
      le_rfl, ⟨BlobPage.init default, by simp, newPage_init _⟩, ?_, rfl, ?_⟩
    · intro k hk0 hkN
      simp [hk0, hkN]
    · refine ⟨[], N + 1, by simp [hN0.symm], by omega, ?_, ?_, trivial, by simp, ?_⟩
      · obtain ⟨n, rfl⟩ : ∃ n, N = n + 1 := ⟨N - 1, by omega⟩
        have hp := ha.perm
        simp only [List.append_nil, Nat.add_sub_cancel] at hp ⊢
        rw [List.range'_concat, one_mul]
        exact (hp.cons (n + 1)).trans (by rw [add_comm n 1]; exact (List.perm_append_singleton _ _).symm)
      · intro x hx
        have h1 : x ≠ N := by omega
        have h2 : x ≠ 0 := by omega
        simpa [h1, h2] using ha.fresh x (by omega)
      · intro x hx
        rcases List.mem_cons.1 hx with rfl | hx
        · exact ⟨BlobPage.init default, by simp, (newPage_init _).not_free⟩
        · have hb := (ha.mem_iff x).1 (.inl hx)
          have h1 : x ≠ N := by omega
          have h2 : x ≠ 0 := by omega
          simpa [h1, h2] using ha.isUsed x hx
  · -- the first free page is taken
    have hfin : f ∈ f :: free := List.mem_cons_self
    have hb := (ha.mem_iff f).1 (.inr hfin)
    have hf0 : f ≠ 0 := by omega
    have hfu : f ∉ used := fun h => ha.not_mem_free h hfin
    have hlf := hlatch f hfu
    obtain ⟨⟨b, hpage, hnext⟩, hlinked⟩ := ha.linked
    have hnd := List.nodup_append.1 ha.nodup
    simp only [newBlobPage, wp_bind, wp_fetchPage, wp_wLatch, wp_getBlobHeader]
    refine ⟨⟨_, ha.header⟩, hl0, _, hview, ?_⟩
    simp only [List.head?_cons, wp_bind, wp_fetchPage, wp_wLatch, wp_setData, wp_pure, wp_getBlobPage, wp_wUnlatch,
      wp_unpinPage]
    refine ⟨⟨_, by simpa using hpage⟩, by simp [hf0, hlf], b, by simp [pageAs, hpage, FilePage.asBlob],
      ⟨_, by simpa using ha.header⟩, b, by simp [pageAs, hf0, hpage, FilePage.asBlob], ⟨_, by simpa [hf0] using hpage⟩,
      by simp, by simp [hf0.symm], by simp [hf0.symm], hfu, hb.1, hb.2.le, ⟨b.init, by simp, newPage_init _⟩,
        ?_, rfl, ?_⟩
    · intro k hk0 hkf
      simp [hk0, hkf]
    · have hne : ∀ x, x ∈ free → x ≠ 0 ∧ x ≠ f := fun x hx => by
        have := (ha.mem_iff x).1 (.inr (List.mem_cons_of_mem _ hx))
        refine ⟨by omega, ?_⟩
        rintro rfl
        exact (List.nodup_cons.1 hnd.2.1).1 hx
      refine ⟨free, N, by simp [hf0.symm, hnext], hn, List.perm_middle.symm.trans ha.perm, ?_, ?_, ?_, ?_⟩
      · intro x hx
        have h1 : x ≠ f := by omega
        have h2 : x ≠ 0 := by omega
        simpa [h1, h2] using ha.fresh x hx
      · refine hlinked.frame fun x hx => ?_
        simp [(hne x hx).1, (hne x hx).2]
      · intro x hx
        simpa [(hne x hx).1, (hne x hx).2] using ha.isFree x (List.mem_cons_of_mem _ hx)
      · intro x hx
        rcases List.mem_cons.1 hx with rfl | hx
        · exact ⟨b.init, by simp, (newPage_init _).not_free⟩
        · have hb := (ha.mem_iff x).1 (.inl hx)
          have h1 : x ≠ f := fun h => hfu (h ▸ hx)
          have h2 : x ≠ 0 := by omega
          simpa [h1, h2] using ha.isUsed x hx

/-- A page in use goes to the front of the free list. -/
theorem deleteBlobPage_spec {x : Nat} (ha : BlobAlloc s (x :: used) free N) (h0 : s.latch (blobKey 0) = .reading 0)
    (hx : s.latch (blobKey x) = .reading 0) :
    wp exec (deleteBlobPage x) (fun r s' => r = true ∧
      (∀ k, k ≠ blobKey 0 → k ≠ blobKey x → s'.page k = s.page k) ∧ s'.member = s.member ∧
      BlobAlloc s' used (x :: free) N) s := by
  have hb := (ha.mem_iff x).1 (.inl List.mem_cons_self)
  have hx0 : x ≠ 0 := by omega
  obtain ⟨b, hpage, hfree⟩ := ha.isUsed x List.mem_cons_self
  have hcond : ¬ (x < 1 ∨ N ≤ x) := by omega
  simp only [deleteBlobPage, wp_bind, wp_fetchPage, wp_wLatch, wp_getBlobHeader]
  refine ⟨⟨_, ha.header⟩, h0, ⟨N, free.head?⟩, by simp [pageAs, ha.header, FilePage.asBlobHeader], ?_⟩
  rw [if_neg hcond]
  simp only [wp_bind, wp_fetchPage, wp_wLatch, wp_getBlobPage]
  refine ⟨⟨_, by simpa using hpage⟩, by simpa [hx0] using hx, b, by simp [pageAs, hpage, FilePage.asBlob], ?_⟩
  -- the page is in use, so it is not freed twice
  rw [hfree, if_neg (by simp)]
  simp only [wp_bind, wp_setData, wp_wUnlatch, wp_unpinPage, wp_pure]
  refine ⟨⟨_, by simpa using hpage⟩, ⟨_, by simpa [hx0.symm] using ha.header⟩, by simp, by simp [hx0.symm], by simp,
    by simp [hx0.symm], trivial, ?_, rfl, ?_⟩
  · intro k hk0 hkx
    simp [hk0, hkx]
  · have hnd := ha.nodup
    rw [List.cons_append, List.nodup_cons, List.mem_append, not_or] at hnd
    have hne : ∀ y, y ∈ used ∨ y ∈ free → y ≠ 0 ∧ y ≠ x := fun y hy => by
      have := (ha.mem_iff y).1 (hy.imp (List.mem_cons_of_mem _) id)
      refine ⟨by omega, ?_⟩
      rintro rfl
      exact hy.elim hnd.1.1 hnd.1.2
    refine ⟨by simp, ha.next_pos, List.perm_middle.trans ha.perm, ?_, ?_, ?_, ?_⟩
    · intro y hy
      have h1 : y ≠ x := by omega
      have h2 : y ≠ 0 := by omega
      simpa [h1, h2] using ha.fresh y hy
    · refine ⟨⟨_, by simp [hx0]; rfl, rfl⟩, ha.linked.frame fun y hy => ?_⟩
      simp [hne y (.inr hy)]
    · intro y hy
      rcases List.mem_cons.1 hy with rfl | hy
      · exact ⟨_, by simp [hx0]; rfl, by simp [BlobPage.isFreePage, BlobPage.initFree]⟩
      · simpa [hne y (.inr hy)] using ha.isFree y hy
    · intro y hy
      simpa [hne y (.inl hy)] using ha.isUsed y (List.mem_cons_of_mem _ hy)

/-! ## Chains -/

/-- A page of a chain after the first. -/
structure TailPage (b : BlobPage) (blobID : Nat) (data : List Byte) : Prop where
  byte : b.word % 256 = 0
  blobID : b.blobID = blobID
  data : BlobPage.NonHead.readData b = data

/-- The first page of a chain. -/
structure HeadPage (b : BlobPage) (flag : Bool) (blobID : Nat) (key data : List Byte) : Prop where
  byte : b.word % 256 = if flag then 1 else 0
  blobID : b.blobID = blobID
  key : BlobPage.Head.getKey b = key
  data : BlobPage.Head.readData b = data

theorem TailPage.not_head {b : BlobPage} {blobID : Nat} {data : List Byte} (h : TailPage b blobID data) :
    b.isBlobListHead = false := by
  simp [BlobPage.isBlobListHead, h.byte]

theorem TailPage.not_free {b : BlobPage} {blobID : Nat} {data : List Byte} (h : TailPage b blobID data) :
    b.isFreePage = false :=
  BlobPage.not_free_of_byte (by rw [h.byte]; omega)

theorem HeadPage.isBlobListHead {b : BlobPage} {flag : Bool} {blobID : Nat} {key data : List Byte}
    (h : HeadPage b flag blobID key data) : b.isBlobListHead = flag := by
  unfold BlobPage.isBlobListHead
  rw [h.byte]
  cases flag <;> rfl

theorem HeadPage.not_free {b : BlobPage} {flag : Bool} {blobID : Nat} {key data : List Byte}
    (h : HeadPage b flag blobID key data) : b.isFreePage = false :=
  BlobPage.not_free_of_byte (by rw [h.byte]; cases flag <;> decide)

/-- A blob: its pages in order, each with the data it holds. -/
structure Chain where
  blobID : Nat
  key : List Byte
  head : Nat
  headData : List Byte
  rest : List (Nat × List Byte)

namespace Chain

def restPages (c : Chain) : List Nat := c.rest.map Prod.fst

def pages (c : Chain) : List Nat := c.head :: c.restPages

/-- The data of the pages, one after the other. -/
def value (c : Chain) : List Byte := c.headData ++ (c.rest.map Prod.snd).flatten

/-- The pages after the first hold what the chain says. -/
def Tail (s : DataStore) (blobID : Nat) (rest : List (Nat × List Byte)) : Prop :=
  ∀ x ∈ rest, ∃ b, s.page (blobKey x.1) = some (.blob b) ∧ TailPage b blobID x.2

/-- The pages hold the blob. `flag` is the head flag, which is set last. -/
structure Stored (s : DataStore) (flag : Bool) (c : Chain) : Prop where
  linked : Linked s c.pages
  head : ∃ b, s.page (blobKey c.head) = some (.blob b) ∧ HeadPage b flag c.blobID c.key c.headData
  tail : Tail s c.blobID c.rest

theorem Tail.frame {blobID : Nat} {rest : List (Nat × List Byte)} (h : Tail s blobID rest)
    (hp : ∀ x ∈ rest.map Prod.fst, s'.page (blobKey x) = s.page (blobKey x)) : Tail s' blobID rest := by
  intro x hx
  rw [hp x.1 (List.mem_map_of_mem hx)]
  exact h x hx

theorem Stored.frame {flag : Bool} {c : Chain} (h : Stored s flag c)
    (hp : ∀ x ∈ c.pages, s'.page (blobKey x) = s.page (blobKey x)) : Stored s' flag c := by
  refine ⟨h.linked.frame hp, ?_, h.tail.frame fun x hx => hp x (List.mem_cons_of_mem _ hx)⟩
  rw [hp c.head List.mem_cons_self]
  exact h.head

end Chain

/-! ## Storing a blob -/

/-- What `insertBlob` writes to a page after the first. -/
theorem tailPage_written {b : BlobPage} (blobID : Nat) {data : List Byte}
    (h : data.length ≤ BlobPage.NonHead.MAX_DATA_SIZE) :
    TailPage (BlobPage.NonHead.writeData (({ b with blobID } : BlobPage).setIsBlobListHead false) data) blobID data :=
  ⟨BlobPage.setIsBlobListHead_byte _ false, rfl, BlobPage.readData_nonHead _ h⟩

/-- What it writes to the first page, before the flag. -/
theorem headPage_written {b : BlobPage} (blobID : Nat) {key data : List Byte} (hkey : key.length = RECORD_KEY_SIZE)
    (h : data.length ≤ BlobPage.Head.MAX_DATA_SIZE) :
    HeadPage (BlobPage.Head.writeData
      (BlobPage.Head.setKey (({ b with blobID } : BlobPage).setIsBlobListHead false) key) data) false blobID key data :=
  ⟨BlobPage.setIsBlobListHead_byte _ false, rfl, by rw [BlobPage.getKey_writeData, BlobPage.getKey_setKey _ hkey],
    BlobPage.readData_head _ h⟩

theorem insertBlobRest_spec (blobID fuel prev : Nat) (value : List Byte) {b : BlobPage} (ha : BlobAlloc s used free N)
    (hprev : prev ∈ used) (hpage : s.page (blobKey prev) = some (.blob b)) (hnext : b.next = none)
    (hpin : 0 < s.pins (blobKey prev)) (hwrite : s.latch (blobKey prev) = .writing)
    (hlatch : ∀ k, k ≠ blobKey prev → s.latch k = .reading 0) (hfuel : value.length ≤ fuel) :
    wp exec (insertBlobRest blobID fuel prev value) (fun _ s' => ∃ rest : List (Nat × List Byte),
      (rest.map Prod.snd).flatten = value ∧
      s'.page (blobKey prev) = some (.blob { b with next := (rest.map Prod.fst).head? }) ∧
      Linked s' (rest.map Prod.fst) ∧ Chain.Tail s' blobID rest ∧
      (∀ k, k ≠ blobKey 0 → k ≠ blobKey prev → (∀ x ∈ rest.map Prod.fst, k ≠ blobKey x) → s'.page k = s.page k) ∧
      s'.member = s.member ∧ ∃ free' N', BlobAlloc s' (rest.map Prod.fst ++ used) free' N') s := by
  induction fuel generalizing s prev value used free N b with
  | zero =>
    obtain rfl : value = [] := List.eq_nil_of_length_eq_zero (by omega)
    refine (wp_pure _).2 ⟨[], rfl, ?_, trivial, by simp [Chain.Tail], fun _ _ _ _ => rfl, rfl, free, N, ha⟩
    rw [hpage, List.map_nil, List.head?_nil, ← hnext]
  | succ fuel ih =>
    rw [insertBlobRest]
    by_cases hv : value = []
    · subst hv
      rw [if_pos rfl]
      refine (wp_pure _).2 ⟨[], rfl, ?_, trivial, by simp [Chain.Tail], fun _ _ _ _ => rfl, rfl, free, N, ha⟩
      rw [hpage, List.map_nil, List.head?_nil, ← hnext]
    rw [if_neg hv, wp_bind]
    have hfreeLatch : ∀ x, x ∉ used → s.latch (blobKey x) = .reading 0 := fun x hx =>
      hlatch _ fun h => hx (by rw [blobKey_inj.1 h]; exact hprev)
    refine wp_conseq (wp_and_wlp (newBlobPage_spec ha hfreeLatch) newBlobPage_held) fun q t ht => ?_
    obtain ⟨⟨hqu, hq1, -, ⟨bq, hbq, hnew⟩, hframe, hmem, free', N', ha'⟩, hpins, hlatches⟩ := ht
    have hqp : q ≠ prev := fun h => hqu (h ▸ hprev)
    have hpq : prev ≠ q := hqp.symm
    have hp0 : prev ≠ 0 := fun h => by have := (ha.mem_iff prev).1 (.inl hprev); omega
    have hprevpage : t.page (blobKey prev) = some (.blob b) := by
      rw [hframe _ (by simpa using hp0) (by simpa using hpq), hpage]
    have hchunk : (value.take (min value.length BlobPage.NonHead.MAX_DATA_SIZE)).length ≤
        BlobPage.NonHead.MAX_DATA_SIZE := by
      rw [List.length_take]
      omega
    have hpos : 0 < min value.length BlobPage.NonHead.MAX_DATA_SIZE :=
      Nat.lt_min.2 ⟨List.length_pos_iff.2 hv, by decide⟩
    generalize hsize : min value.length BlobPage.NonHead.MAX_DATA_SIZE = size at hchunk hpos
    simp only [wp_bind, wp_wLatch, wp_getBlobPage, wp_setData, wp_wUnlatch, wp_unpinPage]
    refine ⟨by rw [hlatches, hlatch _ (by simpa using hqp)], bq, by simp [pageAs, hbq, FilePage.asBlob],
      ⟨_, by simpa using hbq⟩, _, by simp [pageAs, FilePage.asBlob]; rfl, ⟨.blob { bq with blobID }, by simp⟩, b,
      by simp [pageAs, hpq, hprevpage, FilePage.asBlob], ⟨.blob b, by simp [hpq, hprevpage]⟩,
      by simp [hpq, hlatches, hwrite], by simp [hpins, hpq, hpin], _, by simp [pageAs, hqp, FilePage.asBlob]; rfl,
      ⟨.blob (({ bq with blobID } : BlobPage).setIsBlobListHead false), by simp [hqp]⟩, ?_⟩
    -- the state in which the next round starts
    have htail := tailPage_written (b := bq) blobID hchunk
    generalize hbq' : BlobPage.NonHead.writeData (({ bq with blobID } : BlobPage).setIsBlobListHead false)
      (value.take size) = bq' at htail
    have hbq'next : bq'.next = none := by rw [← hbq']; exact hnew.next
    have hu : BlobAlloc ((((((t.setLatch (blobKey q) .writing).setPage (blobKey q) (.blob { bq with blobID })).setPage
        (blobKey q) (.blob (({ bq with blobID } : BlobPage).setIsBlobListHead false))).setPage (blobKey prev)
        (.blob { b with next := some q })).setLatch (blobKey prev) (.reading 0)).setPins (blobKey prev)
        (t.pins (blobKey prev) - 1) |>.setPage (blobKey q) (.blob bq')) (q :: used) free' N' := by
      refine ha'.frame (fun x hx => ?_) fun x hx => ?_
      · rw [List.mem_cons, not_or] at hx
        have hxp : x ≠ prev := fun h => hx.2 (h ▸ hprev)
        simp [hx.1, hxp]
      · by_cases hxq : x = q
        · exact ⟨bq', by simp [hxq], htail.not_free⟩
        · by_cases hxp : x = prev
          · obtain ⟨b', hb', hfree⟩ := ha.isUsed prev hprev
            rw [hpage, Option.some.injEq, FilePage.blob.injEq] at hb'
            exact ⟨{ b with next := some q }, by simp [hxp, hpq], by rw [← hb'] at hfree; exact hfree⟩
          · simpa [hxq, hxp] using ha'.isUsed x hx
    refine wp_conseq (ih q (value.drop size) hu List.mem_cons_self (b := bq') (by simp) hbq'next ?_ ?_ ?_ ?_) ?_
    · simp [hqp, hpins]
    · simp [hqp]
    · intro k hk
      by_cases hkp : k = blobKey prev
      · simp [hkp]
      · simp [hk, hkp, hlatches, hlatch k hkp]
    · rw [List.length_drop]
      omega
    · rintro _ s' ⟨rest, hvalue, hq, hlinked, htails, hfr, hmem', free'', N'', ha''⟩
      have hnd := List.nodup_append.1 ha''.nodup
      have hdisj : ∀ x ∈ rest.map Prod.fst, x ≠ q ∧ x ≠ prev := fun x hx => by
        have := (List.nodup_append.1 hnd.1).2.2 x hx
        exact ⟨this q List.mem_cons_self, this prev (List.mem_cons_of_mem _ hprev)⟩
      refine ⟨(q, value.take size) :: rest, ?_, ?_, ⟨⟨_, hq, rfl⟩, hlinked⟩, ?_, ?_, by rw [hmem']; exact hmem,
        free'', N'', ?_⟩
      · rw [List.map_cons, List.flatten_cons, hvalue, List.take_append_drop]
      · rw [hfr _ (by simpa using hp0) (by simpa using hpq) fun x hx => by simpa using (hdisj x hx).2.symm]
        simp [hpq]
      · intro x hx
        rcases List.mem_cons.1 hx with rfl | hx
        · exact ⟨_, hq, htail.byte, htail.blobID, htail.data⟩
        · exact htails x hx
      · intro k hk0 hkp hkrest
        simp only [List.map_cons, List.mem_cons, forall_eq_or_imp] at hkrest
        rw [hfr k hk0 hkrest.1 hkrest.2, ← hframe k hk0 hkrest.1]
        simp [hkrest.1, hkp]
      · exact ha''.congr_used (by rw [List.map_cons, List.cons_append]; exact List.perm_middle.symm)

/-- No call is under way. -/
def Idle (s : DataStore) : Prop := ∀ k, s.latch k = .reading 0

theorem SameHeld.idle (h : SameHeld s s') (hi : Idle s) : Idle s' := fun k => by rw [h.2, hi k]

/-- The head flag is a byte of its own. -/
theorem HeadPage.raise {b : BlobPage} {blobID : Nat} {key data : List Byte} (h : HeadPage b false blobID key data) :
    HeadPage (b.setIsBlobListHead true) true blobID key data :=
  ⟨BlobPage.setIsBlobListHead_byte b true, h.blobID, h.key, h.data⟩

/-- The value lies in a new chain, and no page of another blob has changed. -/
theorem storeBlob_spec {key value : List Byte} (ha : BlobAlloc s used free N) (hidle : Idle s)
    (hkey : key.length = RECORD_KEY_SIZE) (hvalue : value ≠ []) :
    wp exec (storeBlob key value) (fun first s' => ∃ c : Chain,
      c.head = first ∧ first ≤ N ∧ c.key = key ∧ c.value = value ∧ c.blobID = s.member.nextBlobID + 1 ∧ c.Stored s' true ∧
      (∀ k, k ≠ blobKey 0 → (∀ x ∈ c.pages, k ≠ blobKey x) → s'.page k = s.page k) ∧
      s'.member = ⟨s.member.nextBlobID + 1⟩ ∧ ∃ free' N', BlobAlloc s' (c.pages ++ used) free' N') s := by
  unfold storeBlob
  simp only [wp_bind, wp_getMember, wp_setMember]
  rw [if_neg hvalue, wp_bind]
  generalize s.member.nextBlobID + 1 = blobID
  have ha₀ : BlobAlloc (s.withMember ⟨blobID⟩) used free N := ha.frame_all fun _ => rfl
  refine wp_conseq (wp_and_wlp (newBlobPage_spec ha₀ fun x _ => hidle _) newBlobPage_held) fun q t ht => ?_
  obtain ⟨⟨hqu, hq1, hqN, ⟨bq, hbq, hnew⟩, hframe, hmem, free', N', ha'⟩, hpins, hlatches⟩ := ht
  have hchunk : (value.take (min value.length BlobPage.Head.MAX_DATA_SIZE)).length ≤ BlobPage.Head.MAX_DATA_SIZE := by
    rw [List.length_take]
    omega
  generalize min value.length BlobPage.Head.MAX_DATA_SIZE = size at hchunk
  have hhead := headPage_written (b := bq) blobID hkey hchunk
  have htl : ∀ k, t.latch k = .reading 0 := fun k => by rw [hlatches]; exact hidle k
  simp only [wp_bind, wp_wLatch, wp_getBlobPage, wp_setData]
  refine ⟨htl _, bq, by simp [pageAs, hbq, FilePage.asBlob], ⟨.blob bq, by simpa using hbq⟩, { bq with blobID },
    by simp [pageAs, FilePage.asBlob], ⟨.blob { bq with blobID }, by simp⟩,
    ({ bq with blobID } : BlobPage).setIsBlobListHead false, by simp [pageAs, FilePage.asBlob],
    ⟨.blob (({ bq with blobID } : BlobPage).setIsBlobListHead false), by simp⟩,
    BlobPage.Head.setKey (({ bq with blobID } : BlobPage).setIsBlobListHead false) key,
      by simp [pageAs, FilePage.asBlob],
    ⟨.blob (BlobPage.Head.setKey (({ bq with blobID } : BlobPage).setIsBlobListHead false) key), by simp⟩, ?_⟩
  generalize hbq' : BlobPage.Head.writeData
    (BlobPage.Head.setKey (({ bq with blobID } : BlobPage).setIsBlobListHead false) key)
    (value.take size) = bq' at hhead
  have hbq'next : bq'.next = none := by rw [← hbq']; exact hnew.next
  -- the state after the first round
  generalize hu : PageStore.setPage (PageStore.setPage (PageStore.setPage (PageStore.setPage (PageStore.setLatch t
    (blobKey q) .writing) (blobKey q) _) (blobKey q) _) (blobKey q) _) (blobKey q) (FilePage.blob bq') = u
  have hupage : u.page = Function.update t.page (blobKey q) (some (.blob bq')) := by simp [← hu]
  have hupins : u.pins = t.pins := by simp [← hu]
  have hulatch : u.latch = Function.update t.latch (blobKey q) .writing := by simp [← hu]
  have humem : u.member = t.member := by simp [← hu]
  have hau : BlobAlloc u (q :: used) free' N' := by
    refine ha'.frame (fun x hx => ?_) fun x hx => ?_
    · rw [List.mem_cons, not_or] at hx
      simp [hupage, hx.1]
    · by_cases hxq : x = q
      · exact ⟨bq', by simp [hupage, hxq], hhead.not_free⟩
      · simpa [hupage, hxq] using ha'.isUsed x hx
  have hheld : Writing s.pins s.latch (blobKey q) u :=
    ⟨by rw [hupins, hpins]; rfl, hidle _, by rw [hulatch, hlatches]; rfl⟩
  have hrest := insertBlobRest_spec (b := bq') blobID value.length q (value.drop size) hau List.mem_cons_self
    (by simp [hupage]) hbq'next (by simp [hupins, hpins]) (by simp [hulatch])
    (fun k hk => by simp [hulatch, hk, htl]) (by rw [List.length_drop]; omega)
  apply wp_conseq (wp_and_wlp hrest (insertBlobRest_held blobID _ q _ hheld))
  rintro last v ⟨⟨rest, hrestvalue, hq, hlinked, htails, hfr, hmem', free'', N'', ha''⟩, hw⟩
  have hvl : Function.update v.latch (blobKey last) (.reading 0) = s.latch := by
    rw [hw.latch, Function.update_idem, ← hw.free, Function.update_eq_self]
  generalize hb' : ({ bq' with next := (rest.map Prod.fst).head? } : BlobPage) = b' at hq
  have hb'head : HeadPage b' false blobID key (value.take size) := by
    rw [← hb']
    exact ⟨hhead.byte, hhead.blobID, hhead.key, hhead.data⟩
  simp only [wp_wUnlatch, wp_unpinPage, wp_fetchPage, wp_pure]
  refine ⟨by rw [hw.latch, Function.update_self], by simp [hw.pins], ⟨_, by simpa using hq⟩, ?_, b',
    by simp [pageAs, hq, FilePage.asBlob], ⟨_, by simpa using hq⟩, by simp, by simp,
    ⟨blobID, key, q, value.take size, rest⟩, rfl, hqN, rfl, ?_, rfl, ⟨?_, ?_, ?_⟩, ?_, ?_, free'', N'', ?_⟩
  · simp only [setPins_latch, setLatch_latch, hvl]
    exact hidle _
  · rw [Chain.value, hrestvalue, List.take_append_drop]
  · have hnd := (List.nodup_append.1 ha''.nodup).1
    refine ⟨⟨b'.setIsBlobListHead true, by simp, by rw [← hb']; rfl⟩, hlinked.frame fun x hx => ?_⟩
    have hxq : x ≠ q := (List.nodup_append.1 hnd).2.2 x hx q List.mem_cons_self
    simp [hxq]
  · exact ⟨b'.setIsBlobListHead true, by simp, hb'head.raise⟩
  · have hnd := (List.nodup_append.1 ha''.nodup).1
    refine htails.frame fun x hx => ?_
    have hxq : x ≠ q := (List.nodup_append.1 hnd).2.2 x hx q List.mem_cons_self
    simp [hxq]
  · intro k hk0 hk
    simp only [Chain.pages, Chain.restPages, List.mem_cons, forall_eq_or_imp] at hk
    have hvk := hfr k hk0 hk.1 hk.2
    rw [hupage, Function.update_of_ne hk.1, hframe k hk0 hk.1] at hvk
    simp [hk.1, hvk]
  · simp [hmem', humem, hmem]
  · have hperm : (q :: (rest.map Prod.fst ++ used)).Perm (rest.map Prod.fst ++ q :: used) := List.perm_middle.symm
    refine (ha''.congr_used hperm).frame (fun x hx => ?_) fun x hx => ?_
    · rw [List.mem_cons, not_or] at hx
      simp [hx.1]
    · by_cases hxq : x = q
      · exact ⟨b'.setIsBlobListHead true, by simp [hxq], hb'head.raise.not_free⟩
      · have hx' : x ∈ rest.map Prod.fst ++ q :: used := by
          simp only [List.mem_cons, List.mem_append] at hx ⊢
          tauto
        simpa [hxq] using ha''.isUsed x hx'

/-- The four bytes of a page id name it. -/
theorem pageIDOf_bytesOf {p : Nat} {bytes : List Byte} (h : bytesOf p = some bytes) :
    pageIDOf bytes = some p ∧ bytes.length = 4 := by
  unfold bytesOf at h
  split at h
  · rename_i hp
    have hp : p < 4294967295 := hp
    obtain rfl := Option.some.inj h
    have hle : leNat (leBytes 4 p) = p := by
      rw [leNat_leBytes]
      exact Nat.mod_eq_of_lt (by omega)
    have htake : (leBytes 4 p).take 4 = leBytes 4 p := List.take_of_length_le (by simp)
    refine ⟨?_, leBytes_length 4 p⟩
    unfold pageIDOf
    simp only [htake, hle]
    rw [if_neg (by omega)]
  · cases h

/-! ## Reading and removing a blob -/

/-- The rounds of `getBlob` append the data of the pages. -/
theorem getBlobRest_spec {blobID : Nat} {rest : List (Nat × List Byte)} (hlinked : Linked s (rest.map Prod.fst))
    (htail : Chain.Tail s blobID rest) (hidle : Idle s) {fuel : Nat} (hfuel : rest.length ≤ fuel) (blob : List Byte) :
    wp exec (getBlobRest blobID fuel (rest.map Prod.fst).head? blob) (fun r s' =>
      r = some (blob ++ (rest.map Prod.snd).flatten) ∧ s'.page = s.page ∧ s'.member = s.member) s := by
  induction rest generalizing s fuel blob with
  | nil =>
    cases fuel <;> exact (wp_pure _).2 ⟨by simp, rfl, rfl⟩
  | cons x rest ih =>
    obtain ⟨fuel, rfl⟩ : ∃ n, fuel = n + 1 := ⟨fuel - 1, by rw [List.length_cons] at hfuel; omega⟩
    obtain ⟨⟨b, hb, hnext⟩, hrest⟩ := hlinked
    obtain ⟨b', hb', hpage⟩ := htail x List.mem_cons_self
    obtain rfl : b = b' := by
      rw [hb, Option.some.injEq, FilePage.blob.injEq] at hb'
      exact hb'
    rw [List.map_cons, List.head?_cons, getBlobRest]
    simp only [wp_bind, wp_fetchPage, wp_rLatch, wp_getBlobPage]
    refine ⟨⟨_, hb⟩, 0, hidle _, b, by simp [pageAs, hb, FilePage.asBlob], ?_⟩
    rw [if_neg (by simp [hpage.not_free]), if_neg (by simp [hpage.not_head]), if_neg (by simp [hpage.blobID])]
    simp only [wp_bind, wp_rUnlatch, wp_unpinPage]
    refine ⟨0, by simp, by simp, ?_⟩
    rw [hpage.data, hnext]
    generalize hs₁ : PageStore.setPins (PageStore.setLatch _ (blobKey x.1) (.reading 0)) (blobKey x.1) _ = s₁
    have hpages : s₁.page = s.page := by rw [← hs₁]; rfl
    have hidle₁ : Idle s₁ := fun k => by
      by_cases hk : k = blobKey x.1
      · simp [← hs₁, hk]
      · simp [← hs₁, hk, hidle k]
    refine wp_conseq (ih (hrest.frame fun _ _ => by rw [hpages])
      (Chain.Tail.frame (fun y hy => htail y (List.mem_cons_of_mem _ hy)) fun _ _ => by rw [hpages]) hidle₁
      (by rw [List.length_cons] at hfuel; omega) (blob ++ x.2)) ?_
    rintro r s' ⟨rfl, hp, hm⟩
    exact ⟨by simp, hp.trans hpages, by rw [hm, ← hs₁]; rfl⟩

theorem getBlob_spec {c : Chain} {bytes : List Byte} (hc : c.Stored s true) (hbytes : bytesOf c.head = some bytes)
    (hidle : Idle s) {fuel : Nat} (hfuel : c.rest.length ≤ fuel) :
    wp exec (getBlob fuel c.key bytes) (fun r s' => r = some c.value ∧ s'.page = s.page ∧ s'.member = s.member) s := by
  obtain ⟨⟨b, hb, hnext⟩, hlinked⟩ := hc.linked
  obtain ⟨b', hb', hpage⟩ := hc.head
  obtain rfl : b = b' := by
    rw [hb, Option.some.injEq, FilePage.blob.injEq] at hb'
    exact hb'
  rw [getBlob, (pageIDOf_bytesOf hbytes).1]
  simp only [wp_bind, wp_fetchPage, wp_rLatch, wp_getBlobPage]
  refine ⟨⟨_, hb⟩, 0, hidle _, b, by simp [pageAs, hb, FilePage.asBlob], ?_⟩
  rw [if_neg (by simp [hpage.not_free]), if_neg (by simp [hpage.isBlobListHead]), if_neg (by simp [hpage.key])]
  simp only [wp_bind, wp_rUnlatch, wp_unpinPage]
  refine ⟨0, by simp, by simp, ?_⟩
  rw [hpage.data, hnext, hpage.blobID]
  generalize hs₁ : PageStore.setPins (PageStore.setLatch _ (blobKey c.head) (.reading 0)) (blobKey c.head) _ = s₁
  have hpages : s₁.page = s.page := by rw [← hs₁]; rfl
  have hidle₁ : Idle s₁ := fun k => by
    by_cases hk : k = blobKey c.head
    · simp [← hs₁, hk]
    · simp [← hs₁, hk, hidle k]
  refine wp_conseq (getBlobRest_spec (hlinked.frame fun _ _ => by rw [hpages])
    (hc.tail.frame fun _ _ => by rw [hpages]) hidle₁ hfuel c.headData) ?_
  rintro r s' ⟨rfl, hp, hm⟩
  exact ⟨rfl, hp.trans hpages, by rw [hm, ← hs₁]; rfl⟩

/-- The pages of a chain go to the free list, one by one. -/
theorem removeBlobFrom_spec {pages : List Nat} (ha : BlobAlloc s (pages ++ used) free N) (hlinked : Linked s pages)
    (hidle : Idle s) {fuel : Nat} (hfuel : pages.length ≤ fuel) :
    wp exec (removeBlobFrom fuel pages.head?) (fun _ s' =>
      (∀ k, k ≠ blobKey 0 → (∀ x ∈ pages, k ≠ blobKey x) → s'.page k = s.page k) ∧ s'.member = s.member ∧
      ∃ free', BlobAlloc s' used free' N) s := by
  induction pages generalizing s fuel free with
  | nil =>
    cases fuel <;> exact (wp_pure _).2 ⟨fun _ _ _ => rfl, rfl, free, ha⟩
  | cons x pages ih =>
    obtain ⟨fuel, rfl⟩ : ∃ n, fuel = n + 1 := ⟨fuel - 1, by rw [List.length_cons] at hfuel; omega⟩
    obtain ⟨⟨b, hb, hnext⟩, hrest⟩ := hlinked
    rw [List.head?_cons, removeBlobFrom]
    simp only [wp_bind, wp_fetchPage, wp_rLatch, wp_getBlobPage, wp_rUnlatch, wp_unpinPage]
    refine ⟨⟨_, hb⟩, 0, hidle _, b, by simp [pageAs, hb, FilePage.asBlob], 0, by simp, by simp, ?_⟩
    generalize hs₁ : PageStore.setPins (PageStore.setLatch _ (blobKey x) (.reading 0)) (blobKey x) _ = s₁
    have hpages : s₁.page = s.page := by rw [← hs₁]; rfl
    have hidle₁ : Idle s₁ := fun k => by
      by_cases hk : k = blobKey x
      · simp [← hs₁, hk]
      · simp [← hs₁, hk, hidle k]
    have ha₁ : BlobAlloc s₁ (x :: (pages ++ used)) free N := ha.frame_all fun _ => by rw [hpages]
    apply wp_conseq (wp_and_wlp (deleteBlobPage_spec ha₁ (hidle₁ _) (hidle₁ _)) (deleteBlobPage_held x))
    rintro _ t ⟨⟨-, hframe, hmem, ha'⟩, hheld⟩
    have hnd := ha.nodup
    rw [List.cons_append, List.cons_append, List.nodup_cons] at hnd
    -- the pages that come after are apart from the one that is freed
    have hpx : ∀ y ∈ pages, y ≠ 0 ∧ y ≠ x := fun y hy => by
      have := (ha.mem_iff y).1 (.inl (by simp [hy]))
      refine ⟨by omega, ?_⟩
      rintro rfl
      exact hnd.1 (by simp [hy])
    rw [hnext]
    refine wp_conseq (ih ha' (hrest.frame fun y hy => ?_) (hheld.idle hidle₁) (by rw [List.length_cons] at hfuel; omega)) ?_
    · rw [hframe _ (by simpa using (hpx y hy).1) (by simpa using (hpx y hy).2), hpages]
    · rintro _ s' ⟨hframe', hmem', hfree⟩
      refine ⟨fun k hk0 hk => ?_, hmem'.trans (hmem.trans (by rw [← hs₁]; rfl)), hfree⟩
      simp only [List.mem_cons, forall_eq_or_imp] at hk
      rw [hframe' k hk0 hk.2, hframe k hk0 hk.1, hpages]

end MisakiDB.DataAccessor
