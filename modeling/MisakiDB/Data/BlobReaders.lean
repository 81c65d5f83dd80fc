import MisakiDB.Data.BlobThreads
/-!
# A blob is read whole

What each step does to the blobs, and so what a reader may know at each place of its
loop.
-/

namespace MisakiDB.BlobThreads

open Prog PageStore DataFileManager DataAccessor Runs

section
variable {τ : Type} {s s' : State τ} {cur cur' : Nat → Blob} {holder holder' : Nat → Option (Owner τ)} {used free : List Nat}
  {N i : Nat} {st st' : DataStore} {X : Blob} {t u : τ}

/-! ## Readers -/

/-- A page that a reader sees is a page of the file. -/
theorem Inv.seen (h : Inv s cur holder used free N) {p : Nat} {b : BlobPage}
    (hb : pageAs s.store (blobKey p) FilePage.asBlob = some b) (hfree : b.isFreePage = false) :
    NewPage b ∨ ∃ j, Holds (cur b.blobID) b.blobID j p b := by
  rw [pageAs] at hb
  obtain ⟨x, hx, hview⟩ := Option.bind_eq_some_iff.1 hb
  cases x with
  | blob b' =>
    obtain rfl := Option.some.inj hview
    obtain ⟨b'', hb'', hc⟩ := h.content p (h.alloc.mem_used hx hfree)
    rw [hx, Option.some.injEq, FilePage.blob.injEq] at hb''
    exact hb'' ▸ hc
  | zero => exact absurd hx (h.alloc.not_zero p)
  | _ => cases hview

theorem goOn_drawn (key : List Byte) (k : Nat) (next : Option Nat) (blob : List Byte) :
    (goOn key k next blob).drawn = none := by
  cases next <;> rfl

theorem afterHead_drawn (key : List Byte) (p : BlobPage) : (afterHead key p).drawn = none := by
  unfold afterHead
  rcases headOf key p with _ | ⟨k, next, data⟩
  · rfl
  · exact goOn_drawn key k next data

theorem afterNext_drawn (key : List Byte) (k : Nat) (blob : List Byte) (p : BlobPage) :
    (afterNext key k blob p).drawn = none := by
  unfold afterNext
  rcases nextOf k p with _ | ⟨next, data⟩
  · rfl
  · exact goOn_drawn key k next (blob ++ data)

/-- The reader is at place `j` of the blob, with the data of the pages before. -/
theorem Inv.goOn (h : Inv s cur holder used free N) {k j : Nat} {key blob : List Byte}
    (hvalid : k ≠ BlobPage.INVALID_BLOB_ID) (hdone : (cur k).done = true)
    (hkey : (cur k).key = key) (hj : j ≠ 0) (hblob : (((cur k).pages.take j).map Prod.snd).flatten = blob) :
    Knows s cur holder t (BlobThreads.goOn key k (((cur k).pages[j]?).map Prod.fst) blob) := by
  rcases hpage : (cur k).pages[j]? with _ | ⟨p, data⟩
  · rintro v hv
    obtain rfl := Option.some.inj hv
    obtain ⟨hvalue, hstored⟩ := h.complete k hdone
    rw [List.take_of_length_le (List.getElem?_eq_none_iff.1 hpage), hvalue] at hblob
    rwa [hkey, hblob] at hstored
  · exact ⟨hvalid, hdone, hkey, j, data, hj, hpage, hblob⟩

theorem Inv.afterHead (h : Inv s cur holder used free N) {key : List Byte} {p : Nat} {b : BlobPage}
    (hb : pageAs s.store (blobKey p) FilePage.asBlob = some b) :
    Knows s cur holder t (BlobThreads.afterHead key b) := by
  unfold BlobThreads.afterHead headOf
  by_cases hfree : b.isFreePage = true
  · rw [if_pos hfree]
    exact nofun
  rw [if_neg hfree]
  by_cases hhead : b.isBlobListHead = true
  · rw [if_neg (not_not.2 hhead)]
    by_cases hkey : BlobPage.Head.getKey b = key
    · rw [if_neg (not_not.2 hkey)]
      rcases h.seen hb (Bool.not_eq_true _ ▸ hfree) with hnew | ⟨j, hvalid, data, hpage, hnext, hh⟩
      · simp [BlobPage.isBlobListHead, hnew.byte] at hhead
      · by_cases hj : j = 0
        · subst hj
          rw [if_pos rfl] at hh
          have hdone : (cur b.blobID).done = true := by rw [← hh.isBlobListHead, hhead]
          simp only [hnext]
          refine h.goOn hvalid hdone (hh.key.symm.trans hkey) one_ne_zero ?_
          rcases hpages : (cur b.blobID).pages with _ | ⟨y, rest⟩
          · simp [hpages] at hpage
          · obtain rfl : y = (p, data) := by simpa [hpages] using hpage
            simp [hh.data]
        · rw [if_neg hj] at hh
          simp [hh.not_head] at hhead
    · rw [if_pos hkey]
      exact nofun
  · rw [if_pos hhead]
    exact nofun

theorem Inv.afterNext (h : Inv s cur holder used free N) {key blob : List Byte} {k p : Nat} {b : BlobPage}
    (hk : Knows s cur holder t (.reading key k p blob)) (hb : pageAs s.store (blobKey p) FilePage.asBlob = some b) :
    Knows s cur holder t (BlobThreads.afterNext key k blob b) := by
  obtain ⟨hvalid, hdone, hkey, j, data, hj, hpage, hblob⟩ := hk
  unfold BlobThreads.afterNext nextOf
  by_cases hfree : b.isFreePage = true
  · rw [if_pos hfree]
    exact nofun
  rw [if_neg hfree]
  by_cases hhead : b.isBlobListHead = true
  · rw [if_pos hhead]
    exact nofun
  rw [if_neg hhead]
  by_cases hid : b.blobID = k
  · subst hid
    rw [if_neg (not_not.2 rfl)]
    rcases h.seen hb (Bool.not_eq_true _ ▸ hfree) with hnew | ⟨j', -, data', hpage', hnext, hh⟩
    · exact absurd hnew.blobID hvalid
    · -- a page has one place in its blob
      obtain rfl : j' = j := by
        have hlt' := (List.getElem?_eq_some_iff.1 hpage').1
        apply (List.getElem?_inj (by simpa using hlt') (h.distinct b.blobID)).1
        simp [hpage, hpage']
      rw [if_neg hj] at hh
      simp only [hnext]
      apply h.goOn hvalid hdone hkey (Nat.succ_ne_zero j')
      obtain rfl : data' = data := by simpa [hpage'] using hpage
      rw [List.take_add_one, hpage', List.map_append, List.flatten_append, hblob]
      simp [hh.data]
  · rw [if_pos hid]
    exact nofun

/-! ## Writers -/

/-- Steps of the thread that holds the blob. -/
theorem apart_of_held (hh : holder i = some (.thread t)) :
    ∀ o' k, holder k = some o' → o' ≠ .thread t → InUse s k → k ≠ i := by
  rintro o' k hk ho - rfl
  rw [hh, Option.some.injEq] at hk
  exact ho hk.symm

theorem thread_ne {u : τ} (hu : u ≠ t) : Owner.thread u ≠ Owner.thread t := fun h => hu (Owner.thread.inj h)

/-- The last page that was written. -/
theorem Wrote.last {w : Insertion} (h : Wrote st X w) {first prev : Nat} (hw : w.written = some (first, prev)) :
    ∃ front data b, X.pages = front ++ [(prev, data)] ∧ X.pages.head?.map Prod.fst = some first ∧
      st.page (blobKey prev) = some (.blob b) ∧ Holds X w.blobID front.length prev b := by
  have hwritten := h.written
  rw [hw] at hwritten
  obtain ⟨f, hfirst, hlast⟩ := Option.bind_eq_some_iff.1 hwritten.symm
  obtain ⟨⟨p, data⟩, hget, heq⟩ := Option.map_eq_some_iff.1 hlast
  obtain ⟨rfl, rfl⟩ := Prod.mk.inj heq
  obtain ⟨front, hpages⟩ := List.getLast?_eq_some_iff.1 hget
  have hget : X.pages[front.length]? = some (p, data) := by simp [hpages]
  obtain ⟨b, hb, hh⟩ := h.present front.length p data (Nat.zero_le _) hget
  exact ⟨front, data, b, hpages, hfirst, hb, hh⟩

theorem Wrote.none {w : Insertion} (h : Wrote st X w) (hw : w.written = none) : X.pages = [] := by
  have hwritten := h.written
  rw [hw] at hwritten
  rcases hpages : X.pages with _ | ⟨y, rest⟩
  · rfl
  · rw [hpages, List.head?_cons, List.getLast?_cons] at hwritten
    cases hwritten

/-- A page that a thread has latched is in use. -/
theorem Inv.latched_used (h : Inv s cur holder used free N) {p : Nat} (hp : (s.phase u).latched = some p) :
    ∃ k b, (s.phase u).drawn = some k ∧ holder k = some (.thread u) ∧ s.store.page (blobKey p) = some (.blob b) ∧
      b.isFreePage = false ∧ b.blobID = k := by
  have hk := h.knows u
  have hwrote : ∀ w : Insertion, Wrote s.store (cur w.blobID) w → w.written.map Prod.snd = some p →
      ∃ b, s.store.page (blobKey p) = some (.blob b) ∧ b.isFreePage = false ∧ b.blobID = w.blobID := by
    intro w hw hp
    obtain ⟨⟨first, prev⟩, hwritten, rfl⟩ := Option.map_eq_some_iff.1 hp
    obtain ⟨front, data, b, -, -, hb, hh⟩ := hw.last hwritten
    exact ⟨b, hb, hh.not_free, hh.blobID⟩
  generalize s.phase u = x at hp hk ⊢
  cases x with
  | inserting w =>
    obtain ⟨b, hb, hfree, hid⟩ := hwrote w hk.2 hp
    exact ⟨w.blobID, b, rfl, hk.1, hb, hfree, hid⟩
  | placing w page =>
    obtain ⟨b, hb, hfree, hid⟩ := hwrote w hk.2.1 hp
    exact ⟨w.blobID, b, rfl, hk.1, hb, hfree, hid⟩
  | _ => cases hp

theorem Inv.latch_free (h : Inv s cur holder used free N) {p : Nat} (hp : p ∉ used) :
    s.store.latch (blobKey p) = .reading 0 := by
  rcases h.latch p with hl | ⟨u, hu⟩
  · exact hl
  · obtain ⟨-, b, -, -, hb, hfree, -⟩ := h.latched_used hu
    exact absurd (h.alloc.mem_used hb hfree) hp

/-- No reader goes by the id of a blob that is not done. -/
theorem Inv.no_reader (h : Inv s cur holder used free N) (hdone : (cur i).done = false) {key : List Byte} {page : Nat}
    {blob : List Byte} : s.phase u ≠ .reading key i page blob := fun hu => by
  have hk := h.knows u
  rw [hu] at hk
  rw [hk.2.1] at hdone
  cases hdone

theorem Inv.takeBlobID [DecidableEq τ] (h : Inv s cur holder used free N) {key value : List Byte} (hfresh : IDFree s i)
    (hi : i = s.store.member.nextBlobID + 1) (hidle : s.phase t = .idle) (hkey : key.length = RECORD_KEY_SIZE)
    (hvalue : value ≠ []) :
    Inv (s.goto t (s.store.withMember ⟨i⟩) (.inserting ⟨key, value, i, none, value⟩))
      (Function.update cur i ⟨key, value, [], false⟩) (Function.update holder i (some (.thread t))) used free N := by
  have hself : Function.update cur i ⟨key, value, [], false⟩ i = ⟨key, value, [], false⟩ := Function.update_self ..
  refine h.step_frame (i := i) (o := .thread t) (m := none) (x := .inserting ⟨key, value, i, none, value⟩)
    ⟨hfresh.valid, fun k hk => Function.update_of_ne hk .., fun k hk => Function.update_of_ne hk ..,
      fun _ _ _ _ _ _ => rfl, nofun, fun u key page blob hu => absurd hu (hfresh.reader u key page blob), ?_,
      fun _ hr => hr⟩
    rfl (fun u hu => thread_ne hu) (fun _ _ _ _ _ => nofun) (h.alloc.frame_all fun _ => rfl) (fun p hp => ?_)
    (by rw [hself]; exact List.nodup_nil) (by rw [hself]; nofun)
    (h.latch_kept rfl rfl (.inl (by rw [hidle]; rfl))) ?_ nofun ?_ ?_ (fun r hr => .inl ⟨hr, nofun⟩) h.records
  · rintro o' k hk - (⟨u, hu⟩ | ⟨p, b, hb, hfree, rfl⟩)
    · have := h.drawn u k hu
      omega
    · exact hfresh.page p b hb hfree
  · obtain ⟨b, hb, hfree⟩ := h.alloc.isUsed p hp
    refine .inl ⟨hp, rfl, fun b' hb' => Function.update_of_ne ?_ ..⟩
    rw [hb, Option.some.injEq, FilePage.blob.injEq] at hb'
    exact hb' ▸ hfresh.page p b hb hfree
  · refine ⟨Function.update_self .., ?_⟩
    rw [hself]
    exact ⟨hkey, rfl, rfl, hvalue, rfl, hfresh.valid, rfl, rfl, fun l p data _ hl => by simp at hl⟩
  · show s.store.member.nextBlobID ≤ i
    omega
  · rintro k hk
    obtain rfl := Option.some.inj hk
    exact le_rfl

/-- The pages of the blob that a step is about: it keeps them, and changes what they
hold. -/
theorem Inv.content_own (h : Inv s cur holder used free N) {o : Owner τ} {mine : Option Nat}
    (f : Frame s s' cur cur' holder holder' i o mine) (hpres : Present s'.store (cur' i) i 0)
    (hgrow : ∀ (j : Nat) x, (cur i).pages[j]? = some x → (cur' i).pages[j]? = some x)
    (hmine : ∀ p, mine = some p → ∃ (j : Nat) (data : List Byte), (cur' i).pages[j]? = some (p, data)) {p : Nat}
    (hp : p ∈ used) :
    (p ∈ used ∧ s'.store.page (blobKey p) = s.store.page (blobKey p) ∧
        ∀ b, s.store.page (blobKey p) = some (.blob b) → cur' b.blobID = cur b.blobID) ∨
      ∃ b, s'.store.page (blobKey p) = some (.blob b) ∧ (NewPage b ∨ ∃ j, Holds (cur' b.blobID) b.blobID j p b) := by
  have hthere : ∀ (j : Nat) (data : List Byte), (cur' i).pages[j]? = some (p, data) →
      ∃ b, s'.store.page (blobKey p) = some (.blob b) ∧ (NewPage b ∨ ∃ j, Holds (cur' b.blobID) b.blobID j p b) := by
    intro j data hj
    obtain ⟨b, hb, hh⟩ := hpres j p data (Nat.zero_le _) hj
    obtain rfl := hh.blobID
    exact ⟨b, hb, .inr ⟨j, hh⟩⟩
  by_cases hm : mine = some p
  · obtain ⟨j, data, hj⟩ := hmine p hm
    exact .inr (hthere j data hj)
  obtain ⟨b, hb, hc⟩ := h.content p hp
  obtain ⟨b', hb', hfree⟩ := h.alloc.isUsed p hp
  obtain rfl : b = b' := by simpa [hb] using hb'
  by_cases hid : b.blobID = i
  · subst hid
    rcases hc with hnew | ⟨j, -, data, hj, -⟩
    · exact absurd hnew.blobID f.valid
    · exact .inr (hthere j data (hgrow j _ hj))
  · refine .inl ⟨hp, f.page p b hb hfree hid hm, fun b' hb' => ?_⟩
    obtain rfl : b = b' := by simpa [hb] using hb'
    exact f.kept _ hid

variable [DecidableEq τ]

/-- One more page. -/
def Blob.add (X : Blob) (page : Nat) (data : List Byte) : Blob := { X with pages := X.pages ++ [(page, data)] }

/-- The page that is written is the next one, and the page before it gets the link. -/
theorem Present.add {page : Nat} {data : List Byte} {b : BlobPage} (h : Present st X i 0)
    (hvalid : i ≠ BlobPage.INVALID_BLOB_ID) (hb : st'.page (blobKey page) = some (.blob b)) (hnext : b.next = none)
    (hpage : if X.pages.length = 0 then HeadPage b X.done i X.key data else TailPage b i data)
    (hlink : ∀ l p d c, X.pages[l]? = some (p, d) → st.page (blobKey p) = some (.blob c) →
      st'.page (blobKey p) = some (.blob (if l + 1 = X.pages.length then { c with next := some page } else c))) :
    Present st' (X.add page data) i 0 := by
  intro l p d _ hl
  by_cases hlt : l < X.pages.length
  · have hl' : X.pages[l]? = some (p, d) := by rwa [Blob.add, List.getElem?_append_left hlt] at hl
    obtain ⟨c, hc, -, d', hd', hcnext, hh⟩ := h l p d (Nat.zero_le _) hl'
    obtain rfl : d' = d := by simpa [hl'] using hd'.symm
    by_cases hlast : l + 1 = X.pages.length
    · have hc' := hlink l p d' c hl' hc
      rw [if_pos hlast] at hc'
      refine ⟨_, hc', hvalid, d', hl, ?_, ?_⟩
      · simp [Blob.add, hlast]
      · split at hh
        · rename_i hl0
          rw [if_pos hl0]
          exact ⟨hh.byte, hh.blobID, hh.key, hh.data⟩
        · rename_i hl0
          rw [if_neg hl0]
          exact ⟨hh.byte, hh.blobID, hh.data⟩
    · have hc' := hlink l p d' c hl' hc
      rw [if_neg hlast] at hc'
      refine ⟨c, hc', hvalid, d', hl, ?_, hh⟩
      rw [hcnext, Blob.add, List.getElem?_append_left (by omega)]
  · have hlen : l < X.pages.length + 1 := by simpa [Blob.add] using (List.getElem?_eq_some_iff.1 hl).1
    obtain rfl : l = X.pages.length := by omega
    obtain ⟨rfl, rfl⟩ : page = p ∧ data = d := by simpa [Blob.add] using hl
    refine ⟨b, hb, hvalid, data, hl, ?_, hpage⟩
    rw [hnext]
    simp [Blob.add]

/-- A new page, for the round that begins. -/
theorem Inv.newBlobPage (h : Inv s cur holder used free N) {w : Insertion} {page : Nat} {store : DataStore}
    (ht : s.phase t = .inserting w) (hrun : run exec newBlobPage s.store = some (page, store)) :
    ∃ used' free' N', Inv (s.goto t store (.placing w page)) cur holder used' free' N' := by
  obtain ⟨⟨hpage, -, -, ⟨b, hb, hnew⟩, hkept, hmember, free', N', halloc⟩, -, hlatch⟩ :=
    wp_run (wp_and_wlp (newBlobPage_spec h.alloc fun p hp => h.latch_free hp) newBlobPage_held) hrun
  obtain ⟨hh, hwrote⟩ : Knows s cur holder t (.inserting w) := ht ▸ h.knows t
  have hsame : ∀ p ∈ used, store.page (blobKey p) = s.store.page (blobKey p) := fun p hp => by
    have hp0 : p ≠ 0 := Nat.one_le_iff_ne_zero.1 ((h.alloc.mem_iff p).1 (.inl hp)).1
    have hpp : p ≠ page := fun heq => hpage (heq ▸ hp)
    exact hkept _ (by simpa using hp0) (by simpa using hpp)
  have hsame' : ∀ p b, s.store.page (blobKey p) = some (.blob b) → b.isFreePage = false →
      store.page (blobKey p) = s.store.page (blobKey p) := fun p b hb hfree => hsame p (h.alloc.mem_used hb hfree)
  refine ⟨page :: used, free', N', h.step_frame (i := w.blobID) (o := .thread t) (m := none) (x := .placing w page)
    ⟨hwrote.valid, fun _ _ => rfl, fun _ _ => rfl, fun p b hb hfree _ _ => hsame' p b hb hfree, nofun,
      fun _ _ _ _ _ => rfl, apart_of_held hh, fun _ hr => hr⟩ rfl (fun u hu => thread_ne hu)
        (fun _ _ _ _ _ => nofun) halloc
    (fun p hp => ?_) (h.distinct _) (h.complete _) (h.latch_kept rfl hlatch (.inr (by rw [ht]; rfl)))
    ⟨hh, hwrote.frame fun p b hb hfree _ _ => hsame' p b hb hfree, b, hb, hnew⟩ ?_ ?_ ?_ (fun r hr => .inl ⟨hr, nofun⟩)
    h.records⟩
  · rcases List.mem_cons.1 hp with rfl | hp
    · exact .inr ⟨b, hb, .inl hnew⟩
    · exact .inl ⟨hp, hsame p hp, fun _ _ => rfl⟩
  · rintro w' p' heq
    obtain ⟨-, rfl⟩ := Phase.placing.inj heq
    exact hpage
  · exact (congrArg DataAccessor.nextBlobID hmember).ge
  · rintro k hk
    show k ≤ store.member.nextBlobID
    rw [hmember]
    exact h.drawn t k (by rw [ht]; exact hk)

/-- What a round leaves. -/
structure Round (st st' : DataStore) (X : Blob) (w : Insertion) (page : Nat) : Prop where
  wrote : Wrote st' (X.add page (w.rest.take w.size)) (w.after page)
  kept : ∀ p, p ≠ page → w.written.map Prod.snd ≠ some p → st'.page (blobKey p) = st.page (blobKey p)
  latch : ∀ p, p ≠ page → w.written.map Prod.snd ≠ some p → st'.latch (blobKey p) = st.latch (blobKey p)
  gone : ∀ p, p ≠ page → w.written.map Prod.snd = some p → st'.latch (blobKey p) = .reading 0
  member : st'.member = st.member

theorem Wrote.after {w : Insertion} {page : Nat} (h : Wrote st X w)
    (hpres : Present st' (X.add page (w.rest.take w.size)) w.blobID 0) :
    Wrote st' (X.add page (w.rest.take w.size)) (w.after page) := by
  refine ⟨h.keySize, h.key, h.value, h.nonempty, h.done, h.valid, ?_, ?_, hpres⟩
  · simp only [Blob.add, Insertion.after, List.map_append, List.flatten_append, List.map_cons, List.map_nil,
      List.flatten_singleton, List.append_assoc, List.take_append_drop, h.split]
  · cases hw : w.written with
    | none => simp [Insertion.after, hw, Blob.add, h.none hw]
    | some y =>
      obtain ⟨first, prev⟩ := y
      obtain ⟨front, data, b, hpages, hfirst, -, -⟩ := h.last hw
      have hhead : (X.add page (w.rest.take w.size)).pages.head?.map Prod.fst = some first := by
        rw [Blob.add, List.head?_append, ← hfirst]
        simp [hpages]
      rw [hhead]
      simp [Insertion.after, hw, Blob.add]

theorem Insertion.after_latched (w : Insertion) (page : Nat) :
    (Phase.inserting (w.after page)).latched = some page := by
  cases hw : w.written <;> simp [Phase.latched, Insertion.after, hw]

theorem write_does {w : Insertion} {page : Nat} {b : BlobPage} (h : Wrote st X w)
    (hdistinct : (X.pages.map Prod.fst).Nodup)
    (hb : st.page (blobKey page) = some (.blob b)) (hnew : NewPage b) :
    wlp exec (w.write page) (fun _ st' => Round st st' X w page) st := by
  have hlen : (w.rest.take w.size).length ≤ w.size := List.length_take_le ..
  -- the first piece goes to the head page, each other behind the page written last
  cases hw : w.written with
  | none =>
    have hmax : w.size ≤ BlobPage.Head.MAX_DATA_SIZE := by
      rw [Insertion.size, if_pos hw]
      exact Nat.min_le_right ..
    have hempty := h.none hw
    simp only [Insertion.write, hw]
    refine wlp_conseq (writeHead_does hb hnew h.keySize (hlen.trans hmax)) ?_
    rintro _ st' ⟨b', hhead, hnext, hpage, hlatch, hmember⟩
    have hpres : Present st' (X.add page (w.rest.take w.size)) w.blobID 0 := by
      refine h.present.add h.valid (b := b') (by simp [hpage]) hnext ?_ fun l p d c hl => ?_
      · rwa [hempty, List.length_nil, if_pos rfl, h.done, h.key]
      · simp [hempty] at hl
    refine ⟨h.after hpres, fun p hp _ => by simp [hpage, hp], fun p hp _ => by simp [hlatch, hp], ?_, hmember⟩
    rw [hw]
    exact nofun
  | some y =>
    obtain ⟨first, prev⟩ := y
    have hmax : w.size ≤ BlobPage.NonHead.MAX_DATA_SIZE := by
      rw [Insertion.size, if_neg (by simp [hw])]
      exact Nat.min_le_right ..
    obtain ⟨front, data, c, hpages, -, hc, hlast⟩ := h.last hw
    have hprev : prev ≠ page := by
      rintro rfl
      rw [hb, Option.some.injEq, FilePage.blob.injEq] at hc
      exact hlast.not_new (hc ▸ hnew)
    simp only [Insertion.write, hw]
    refine wlp_conseq (writeNext_does hb hnew hc hprev (hlen.trans hmax)) ?_
    rintro _ st' ⟨b', htail, hnext, hpage, hlatch, hmember⟩
    have hpres : Present st' (X.add page (w.rest.take w.size)) w.blobID 0 := by
      refine h.present.add h.valid (b := b') (by simp [hpage]) hnext ?_ fun l p d c' hl hc' => ?_
      · rwa [if_neg (by simp [hpages])]
      · have hpp : p ≠ page := by
          rintro rfl
          obtain ⟨b'', hb'', hh⟩ := h.present l p d (Nat.zero_le _) hl
          rw [hb, Option.some.injEq, FilePage.blob.injEq] at hb''
          exact hh.not_new (hb'' ▸ hnew)
        -- of the pages that were there, only the last gets a next page
        have hlast' : l + 1 = X.pages.length ↔ p = prev := by
          have hl' : (X.pages.map Prod.fst)[l]? = some p := by simp [hl]
          have hend : (X.pages.map Prod.fst)[front.length]? = some prev := by simp [hpages]
          have hlt := (List.getElem?_eq_some_iff.1 hl').1
          constructor
          · intro heq
            obtain rfl : l = front.length := by simpa [hpages] using heq
            exact Option.some.inj (hl'.symm.trans hend)
          · rintro rfl
            have := (List.getElem?_inj hlt hdistinct).1 (hl'.trans hend.symm)
            simp [hpages, this]
        by_cases hpv : p = prev
        · subst hpv
          rw [if_pos (hlast'.2 rfl)]
          obtain rfl : c = c' := by simpa [hc] using hc'
          simp [hpage, hpp]
        · rw [if_neg fun heq => hpv (hlast'.1 heq)]
          simp [hpage, hpp, hpv, hc']
    refine ⟨h.after hpres, fun p hp hp' => ?_, fun p hp hp' => ?_, fun p hp hp' => ?_, hmember⟩
    · have hpv : p ≠ prev := fun heq => hp' (by rw [hw, heq]; rfl)
      simp [hpage, hp, hpv]
    · have hpv : p ≠ prev := fun heq => hp' (by rw [hw, heq]; rfl)
      simp [hlatch, hp, hpv]
    · obtain rfl : prev = p := by simpa [hw] using hp'
      simp [hlatch]

/-- A round on the new page. -/
theorem Inv.write (h : Inv s cur holder used free N) {w : Insertion} {page : Nat} {store : DataStore}
    (ht : s.phase t = .placing w page) (hrun : run exec (w.write page) s.store = some ((), store)) :
    Inv (s.goto t store (.inserting (w.after page)))
      (Function.update cur w.blobID ((cur w.blobID).add page (w.rest.take w.size))) holder used free N := by
  obtain ⟨hh, hwrote, b, hb, hnew⟩ : Knows s cur holder t (.placing w page) := ht ▸ h.knows t
  have hround := write_does hwrote (h.distinct _) hb hnew _ _ hrun
  have hX : Function.update cur w.blobID ((cur w.blobID).add page (w.rest.take w.size)) w.blobID =
      (cur w.blobID).add page (w.rest.take w.size) := Function.update_self ..
  have hpageUsed : page ∈ used := h.alloc.mem_used hb hnew.not_free
  -- the page before is a page of the blob
  have hprev : ∀ p, w.written.map Prod.snd = some p →
      (∃ (j : Nat) (data : List Byte), (cur w.blobID).pages[j]? = some (p, data)) ∧ p ∈ used ∧
      ∀ b, s.store.page (blobKey p) = some (.blob b) → b.blobID = w.blobID := by
    intro p hp
    obtain ⟨⟨first, prev⟩, hw, rfl⟩ := Option.map_eq_some_iff.1 hp
    obtain ⟨front, data, c, hpages, -, hc, hlast⟩ := hwrote.last hw
    refine ⟨⟨front.length, data, by simp [hpages]⟩, h.alloc.mem_used hc hlast.not_free, fun b hb => ?_⟩
    obtain rfl : c = b := by simpa [hc] using hb
    exact hlast.blobID
  have f : Frame s (s.goto t store (.inserting (w.after page))) cur
      (Function.update cur w.blobID ((cur w.blobID).add page (w.rest.take w.size))) holder holder w.blobID (.thread t)
      (some page) := by
    refine ⟨hwrote.valid, fun k hk => Function.update_of_ne hk .., fun _ _ => rfl, fun p b' hb' _ hid hm => ?_, ?_,
      fun u key q blob hu => absurd hu (h.no_reader hwrote.done), apart_of_held hh, fun _ hr => hr⟩
    · exact hround.kept p (fun heq => hm (by rw [heq])) fun hp => hid ((hprev p hp).2.2 b' hb')
    · rintro p hp
      obtain rfl := Option.some.inj hp
      exact ⟨b, hb, hnew⟩
  have hpres : Present store ((cur w.blobID).add page (w.rest.take w.size)) w.blobID 0 := hround.wrote.present
  have hgrow : ∀ (j : Nat) x, (cur w.blobID).pages[j]? = some x →
      ((cur w.blobID).add page (w.rest.take w.size)).pages[j]? = some x := fun j x hj => by
    rw [Blob.add, List.getElem?_append_left (List.getElem?_eq_some_iff.1 hj).1, hj]
  have hpagePlace : ((cur w.blobID).add page (w.rest.take w.size)).pages[(cur w.blobID).pages.length]? =
      some (page, w.rest.take w.size) := by simp [Blob.add]
  have hnotmem : page ∉ (cur w.blobID).pages.map Prod.fst := fun hmem => by
    obtain ⟨⟨p, data⟩, hmem', rfl⟩ := List.mem_map.1 hmem
    obtain ⟨l, hl⟩ := List.mem_iff_getElem?.1 hmem'
    obtain ⟨c, hc, hheld⟩ := hwrote.present l p data (Nat.zero_le _) hl
    obtain rfl : b = c := by simpa [hb] using hc
    exact hheld.not_new hnew
  refine h.step_frame f rfl (fun u hu => thread_ne hu) (fun u w' p hu hp heq => ?_) ?_
    (fun p hp => h.content_own f ?_ ?_ ?_ hp) ?_ ?_ (h.latch_moved rfl ?_ ?_) ⟨hh, ?_⟩ nofun ?_ ?_
    (fun r hr => .inl ⟨hr, nofun⟩) h.records
  · obtain rfl := Option.some.inj heq
    exact hu (h.placed u t w' w page hp ht)
  · refine h.alloc.frame (fun p hp => ?_) fun p hp => ?_
    · exact hround.kept p (fun heq => hp (heq ▸ hpageUsed)) fun hw => hp (hprev p hw).2.1
    · by_cases hpp : p = page
      · subst hpp
        obtain ⟨c, hc, hheld⟩ := hpres _ _ _ (Nat.zero_le _) hpagePlace
        exact ⟨c, hc, hheld.not_free⟩
      by_cases hpw : w.written.map Prod.snd = some p
      · obtain ⟨⟨j, data, hj⟩, -, -⟩ := hprev p hpw
        obtain ⟨c, hc, hheld⟩ := hpres j p data (Nat.zero_le _) (hgrow j _ hj)
        exact ⟨c, hc, hheld.not_free⟩
      · obtain ⟨c, hc, hfree⟩ := h.alloc.isUsed p hp
        exact ⟨c, (hround.kept p hpp hpw).trans hc, hfree⟩
  · rwa [hX]
  · rwa [hX]
  · rintro p hp
    obtain rfl := Option.some.inj hp
    rw [hX]
    exact ⟨_, _, hpagePlace⟩
  · rw [hX, Blob.add, List.map_append, List.nodup_append]
    refine ⟨h.distinct _, List.nodup_singleton _, ?_⟩
    rintro a ha b hb rfl
    obtain rfl : a = page := by simpa using hb
    exact hnotmem ha
  · rw [hX]
    intro hdone
    rw [show ((cur w.blobID).add page (w.rest.take w.size)).done = (cur w.blobID).done from rfl, hwrote.done] at hdone
    cases hdone
  · intro p hx hp
    rw [ht] at hp
    exact hround.latch p (fun heq => hx (heq ▸ w.after_latched page)) hp
  · intro p hx hp
    rw [ht] at hp
    exact hround.gone p (fun heq => hx (heq ▸ w.after_latched page)) hp
  · show Wrote store (Function.update cur _ _ w.blobID) _
    rw [hX]
    exact hround.wrote
  · exact (congrArg DataAccessor.nextBlobID hround.member).ge
  · rintro k hk
    show k ≤ store.member.nextBlobID
    rw [hround.member]
    exact h.drawn t k (by rw [ht]; exact hk)

/-- The last page is let go. -/
theorem Inv.letGo (h : Inv s cur holder used free N) {w : Insertion} {first prev : Nat} {store : DataStore}
    (ht : s.phase t = .inserting w) (hrest : w.rest = []) (hw : w.written = some (first, prev))
    (hrun : run exec (letGo prev) s.store = some ((), store)) :
    Inv (s.goto t store (.raising w first)) cur holder used free N := by
  obtain ⟨hpage, hlatch, hmember⟩ := letGo_does _ _ hrun
  obtain ⟨hh, hwrote⟩ : Knows s cur holder t (.inserting w) := ht ▸ h.knows t
  have hlatched : (s.phase t).latched = some prev := by simp [ht, Phase.latched, hw]
  refine h.goto hpage hmember (h.latch_moved rfl (fun p _ hp => ?_) fun p _ hp => ?_) nofun ?_
    ⟨hh, hwrote, hrest, prev, hw⟩
  · have hpp : p ≠ prev := fun heq => hp (heq ▸ hlatched)
    show store.latch (blobKey p) = _
    rw [hlatch, Function.update_of_ne (by simpa using hpp)]
  · obtain rfl : prev = p := by simpa [hlatched] using hp
    show store.latch (blobKey prev) = _
    rw [hlatch, Function.update_self]
  · rw [ht]
    exact fun k hk => hk

/-- The flag makes the blob one that may be read. -/
theorem Inv.raiseHead (h : Inv s cur holder used free N) {w : Insertion} {first : Nat} {bytes : List Byte}
    {store : DataStore}
    (ht : s.phase t = .raising w first) (hrun : run exec (raiseHead first) s.store = some ((), store))
    (hbytes : bytesOf first = some bytes) :
    Inv { s.goto t store (.inserted w.key bytes) with stored := (w.key, w.value) :: s.stored }
      (Function.update cur w.blobID { cur w.blobID with done := true }) holder used free N := by
  obtain ⟨hh, hwrote, hrest, prev, hw⟩ : Knows s cur holder t (.raising w first) := ht ▸ h.knows t
  obtain ⟨front, data, b', -, hfirst, -, -⟩ := hwrote.last hw
  obtain ⟨⟨p, data⟩, hhead, rfl⟩ := Option.map_eq_some_iff.1 hfirst
  rw [List.head?_eq_getElem?] at hhead
  obtain ⟨b, hb, hheld⟩ := hwrote.present 0 p data le_rfl hhead
  obtain ⟨hpage, hlatch, hmember⟩ := raiseHead_does hb _ _ hrun
  have hX : Function.update cur w.blobID { cur w.blobID with done := true } w.blobID =
      { cur w.blobID with done := true } := Function.update_self ..
  have hkept : ∀ q, q ≠ p → store.page (blobKey q) = s.store.page (blobKey q) := fun q hq => by
    rw [hpage, Function.update_of_ne (by simpa using hq)]
  -- the head page keeps its bytes and gets the flag
  have hraised : Holds { cur w.blobID with done := true } w.blobID 0 p (b.setIsBlobListHead true) := by
    obtain ⟨hvalid, data', hj, hnext, hpg⟩ := hheld
    rw [if_pos rfl, hwrote.done] at hpg
    exact ⟨hvalid, data', hj, hnext, hpg.raise⟩
  have hpres : Present store { cur w.blobID with done := true } w.blobID 0 := by
    intro l q d _ hl
    -- the other pages are untouched, and lie apart from the head
    by_cases hl0 : l = 0
    · subst hl0
      obtain ⟨rfl, rfl⟩ := Prod.mk.inj (Option.some.inj (hhead.symm.trans hl))
      exact ⟨_, by rw [hpage, Function.update_self], hraised⟩
    · obtain ⟨c, hc, hvalid, d', hd', hnext, hpg⟩ := hwrote.present l q d (Nat.zero_le _) hl
      have hqp : q ≠ p := by
        rintro rfl
        have hlt := (List.getElem?_eq_some_iff.1 hl).1
        apply hl0
        apply (List.getElem?_inj (by simpa using hlt) (h.distinct w.blobID)).1
        have hl' : (cur w.blobID).pages[l]? = some (q, d) := hl
        simp [hl', hhead]
      refine ⟨c, by rw [hkept q hqp, hc], hvalid, d', hd', hnext, ?_⟩
      rw [if_neg hl0] at hpg ⊢
      exact hpg
  -- no reader holds the blob yet, so nobody sees the step
  have f : Frame s { s.goto t store (.inserted w.key bytes) with stored := (w.key, w.value) :: s.stored } cur
      (Function.update cur w.blobID { cur w.blobID with done := true }) holder holder w.blobID (.thread t) none := by
    refine ⟨hwrote.valid, fun k hk => Function.update_of_ne hk .., fun _ _ => rfl,
      fun q c hc _ hid _ => hkept q ?_, nofun,
      fun u key q blob hu => absurd hu (h.no_reader hwrote.done), apart_of_held hh,
      fun r hr => List.mem_cons_of_mem _ hr⟩
    rintro rfl
    rw [hb, Option.some.injEq, FilePage.blob.injEq] at hc
    exact hid (hc ▸ hheld.blobID)
  have hpUsed : p ∈ used := h.alloc.mem_used hb hheld.not_free
  refine h.step_frame f rfl (fun u hu => thread_ne hu) (fun _ _ _ _ _ => nofun)
    (h.alloc.frame (fun q hq => hkept q fun heq => hq (heq ▸ hpUsed)) fun q hq => ?_)
    (fun q hq => h.content_own f (by rwa [hX]) (by rw [hX]; exact fun _ _ hj => hj) nofun hq)
    (by rw [hX]; exact h.distinct _)
    ?_ (h.latch_kept rfl hlatch (.inl (by rw [ht]; rfl))) ?_ nofun (congrArg DataAccessor.nextBlobID hmember).ge nofun
    (fun r hr => .inl ⟨hr, nofun⟩) h.records
  · by_cases hqp : q = p
    · subst hqp
      exact ⟨_, by show store.page _ = _; rw [hpage, Function.update_self], hraised.not_free⟩
    · obtain ⟨c, hc, hfree⟩ := h.alloc.isUsed q hq
      exact ⟨c, (hkept q hqp).trans hc, hfree⟩
  · rw [hX]
    rintro -
    refine ⟨?_, ?_⟩
    · show ((cur w.blobID).pages.map Prod.snd).flatten = (cur w.blobID).value
      rw [hwrote.value, ← hwrote.split, hrest, List.append_nil]
    · show ((cur w.blobID).key, (cur w.blobID).value) ∈ (w.key, w.value) :: s.stored
      rw [hwrote.key, hwrote.value]
      exact List.mem_cons_self
  · refine ⟨w.blobID, p, hh, ?_, ?_, ?_, hbytes, ?_⟩
    · rw [hX]
    · rw [hX]
      exact hwrote.key
    · rw [hX]
      exact hfirst
    · rwa [hX]

/-! ## Records and removal -/

omit [DecidableEq τ] in
/-- A step that leaves the pages as they are passes the blob from one owner to another. -/
theorem Frame.pass {o o' : Owner τ} (hpage : s'.store.page = s.store.page) (hstored : s'.stored = s.stored)
    (hvalid : i ≠ BlobPage.INVALID_BLOB_ID) (hh : holder i = some o) :
    Frame s s' cur cur holder (Function.update holder i (some o')) i o none := by
  refine ⟨hvalid, fun _ _ => rfl, fun k hk => Function.update_of_ne hk .., fun p _ _ _ _ _ => by rw [hpage], nofun,
    fun _ _ _ _ _ => rfl, ?_, fun r hr => hstored ▸ hr⟩
  rintro o'' k hk ho - rfl
  rw [hh, Option.some.injEq] at hk
  exact ho hk.symm

/-- Two blobs do not begin at one page. -/
theorem Present.first_inj {X Y : Blob} {k first : Nat} (hX : Present st X i 0) (hY : Present st Y k 0)
    (hfirst : X.pages.head?.map Prod.fst = some first) (hfirst' : Y.pages.head?.map Prod.fst = some first) : i = k := by
  obtain ⟨⟨p, data⟩, hhead, rfl⟩ := Option.map_eq_some_iff.1 hfirst
  obtain ⟨⟨q, data'⟩, hhead', heq⟩ := Option.map_eq_some_iff.1 hfirst'
  obtain rfl : q = p := heq
  rw [List.head?_eq_getElem?] at hhead hhead'
  obtain ⟨b, hb, hh⟩ := hX 0 q data le_rfl hhead
  obtain ⟨c, hc, hh'⟩ := hY 0 q data' le_rfl hhead'
  obtain rfl : b = c := by simpa [hb] using hc
  exact hh.blobID.symm.trans hh'.blobID

theorem Present.valid {j p : Nat} {data : List Byte} (h : Present st X i j) (hp : X.pages[j]? = some (p, data)) :
    i ≠ BlobPage.INVALID_BLOB_ID := by
  obtain ⟨b, -, hh⟩ := h j p data le_rfl hp
  exact hh.1

theorem Inv.insertRecord (h : Inv s cur holder used free N) {key bytes : List Byte}
    (ht : s.phase t = .inserted key bytes) :
    ∃ k, Inv { s.goto t s.store .idle with live := (key, bytes) :: s.live } cur
      (Function.update holder k (some (.record bytes))) used free N := by
  obtain ⟨k, first, hh, hdone, hkey, hfirst, hbytes, hpres⟩ : Knows s cur holder t (.inserted key bytes) :=
    ht ▸ h.knows t
  obtain ⟨⟨p, data⟩, hhead, hp⟩ := Option.map_eq_some_iff.1 hfirst
  rw [List.head?_eq_getElem?] at hhead
  have hpass : Frame s { s.goto t s.store .idle with live := (key, bytes) :: s.live } cur cur holder
      (Function.update holder k (some (.record bytes))) k (.thread t) none := .pass rfl rfl (hpres.valid hhead) hh
  refine ⟨k, h.step_frame hpass rfl (fun u hu => thread_ne hu) (fun _ _ _ _ _ => nofun)
    (h.alloc.frame_all fun _ => rfl) (fun q hq => .inl ⟨hq, rfl, fun _ _ => rfl⟩) (h.distinct k) (h.complete k)
    (h.latch_kept rfl rfl (.inl (by rw [ht]; rfl))) trivial nofun le_rfl nofun (fun r hr => ?_) ?_⟩
  · rcases List.mem_cons.1 hr with rfl | hr
    · exact .inr ⟨k, first, Function.update_self .., hdone, hkey, hfirst, hbytes, hpres⟩
    · exact .inl ⟨hr, nofun⟩
  · rw [List.map_cons, List.nodup_cons]
    refine ⟨fun hmem => ?_, h.records⟩
    obtain ⟨r, hr, hr2⟩ := List.mem_map.1 hmem
    obtain ⟨k', first', hh', -, -, hfirst', hbytes', hpres'⟩ := h.live r hr
    rw [hr2] at hbytes'
    obtain rfl : first = first' :=
      Option.some.inj ((pageIDOf_bytesOf hbytes).1.symm.trans (pageIDOf_bytesOf hbytes').1)
    obtain rfl := hpres.first_inj hpres' hfirst hfirst'
    rw [hh] at hh'
    cases hh'

theorem Inv.removeRecord (h : Inv s cur holder used free N) {key bytes : List Byte} (ht : s.phase t = .idle)
    (hr : (key, bytes) ∈ s.live) :
    ∃ k, Inv { s.goto t s.store (.removing (pageIDOf bytes)) with live := s.live.erase (key, bytes) } cur
      (Function.update holder k (some (.thread t))) used free N := by
  obtain ⟨k, first, hh, hdone, hkey, hfirst, hbytes, hpres⟩ := h.live _ hr
  obtain ⟨⟨p, data⟩, hhead, hp⟩ := Option.map_eq_some_iff.1 hfirst
  obtain rfl : p = first := hp
  rw [List.head?_eq_getElem?] at hhead
  have hnodup : s.live.Nodup := List.Nodup.of_map _ h.records
  have hpass : Frame s { s.goto t s.store (.removing (pageIDOf bytes)) with live := s.live.erase (key, bytes) } cur cur holder
      (Function.update holder k (some (.thread t))) k (.record bytes) none := .pass rfl rfl (hpres.valid hhead) hh
  refine ⟨k, h.step_frame hpass rfl nofun (fun _ _ _ _ _ => nofun)
    (h.alloc.frame_all fun _ => rfl) (fun q hq => .inl ⟨hq, rfl, fun _ _ => rfl⟩) (h.distinct k) (h.complete k)
    (h.latch_kept rfl rfl (.inl (by rw [ht]; rfl))) ?_ nofun le_rfl nofun (fun r hr' => .inl ?_)
    ((List.erase_sublist.map _).nodup h.records)⟩
  · rw [(pageIDOf_bytesOf hbytes).1]
    exact ⟨k, 0, data, Function.update_self .., hhead, hpres⟩
  · obtain ⟨hne, hmem⟩ := (List.Nodup.mem_erase_iff hnodup).1 hr'
    refine ⟨hmem, fun heq => hne ?_⟩
    exact List.inj_on_of_nodup_map h.records hmem hr (Owner.record.inj heq)

/-- The page goes, and the blob goes on at the next one. -/
theorem Inv.deleteBlobPage (h : Inv s cur holder used free N) {page : Nat} {next : Option Nat} {r : Bool}
    {store : DataStore}
    (ht : s.phase t = .deleting page next) (hrun : run exec (deleteBlobPage page) s.store = some (r, store)) :
    ∃ used' free', Inv (s.goto t store (.removing next)) cur holder used' free' N := by
  obtain ⟨k, j, data, hh, hj, hnext, hpres⟩ : Knows s cur holder t (.deleting page next) := ht ▸ h.knows t
  obtain ⟨b, hb, hheld⟩ := hpres j page data le_rfl hj
  have hused : page ∈ used := h.alloc.mem_used hb hheld.not_free
  -- the page is the thread's own, so nobody has its latch
  have hlatch : s.store.latch (blobKey page) = .reading 0 := by
    apply (h.latch page).resolve_right
    rintro ⟨u, hu⟩
    obtain ⟨k', b', -, hh', hb', -, hid⟩ := h.latched_used hu
    obtain rfl : b = b' := by simpa [hb] using hb'
    obtain rfl : k = k' := hheld.blobID.symm.trans hid
    obtain rfl : t = u := Owner.thread.inj (Option.some.inj (hh.symm.trans hh'))
    rw [ht] at hu
    cases hu
  have h0 : s.store.latch (blobKey 0) = .reading 0 :=
    h.latch_free fun h0 => absurd ((h.alloc.mem_iff 0).1 (.inl h0)).1 (by omega)
  obtain ⟨⟨-, hkept, hmember, halloc⟩, -, hlatches⟩ :=
    wp_run (wp_and_wlp (deleteBlobPage_spec (h.alloc.congr_used (List.perm_cons_erase hused).symm) h0 hlatch)
      (deleteBlobPage_held page)) hrun
  have hsame : ∀ p ∈ used, p ≠ page → store.page (blobKey p) = s.store.page (blobKey p) := fun p hp hpp => by
    have hp0 : p ≠ 0 := Nat.one_le_iff_ne_zero.1 ((h.alloc.mem_iff p).1 (.inl hp)).1
    exact hkept _ (by simpa using hp0) (by simpa using hpp)
  have hnodup : used.Nodup := (List.nodup_append.1 h.alloc.nodup).1
  have f : Frame s (s.goto t store (.removing next)) cur cur holder holder k (.thread t) none := by
    refine ⟨hheld.1, fun _ _ => rfl, fun _ _ => rfl, fun p c hc hfree hid _ => hsame p (h.alloc.mem_used hc hfree) ?_,
      nofun, fun _ _ _ _ _ => rfl, apart_of_held hh, fun _ hr => hr⟩
    rintro rfl
    obtain rfl : b = c := by simpa [hb] using hc
    exact hid hheld.blobID
  refine ⟨_, _, h.step_frame f rfl (fun u hu => thread_ne hu) (fun _ _ _ _ _ => nofun) halloc (fun p hp => .inl ?_)
    (h.distinct k) (h.complete k) (h.latch_kept rfl hlatches (.inl (by rw [ht]; rfl))) ?_ nofun
    (congrArg DataAccessor.nextBlobID hmember).ge nofun (fun r hr => .inl ⟨hr, nofun⟩) h.records⟩
  · obtain ⟨hpp, hp⟩ := (List.Nodup.mem_erase_iff hnodup).1 hp
    exact ⟨hp, hsame p hp hpp, fun _ _ => rfl⟩
  -- the pages behind it are still there
  · subst hnext
    rcases hnext : (cur k).pages[j + 1]? with _ | ⟨q, d⟩
    · trivial
    · refine ⟨k, j + 1, d, hh, hnext, fun l p d' hl hp => ?_⟩
      obtain ⟨c, hc, hheld'⟩ := hpres l p d' (by omega) hp
      refine ⟨c, (hsame p (h.alloc.mem_used hc hheld'.not_free) ?_).trans hc, hheld'⟩
      rintro rfl
      have hlt := (List.getElem?_eq_some_iff.1 hp).1
      have : l = j := by
        apply (List.getElem?_inj (by simpa using hlt) (h.distinct k)).1
        simp [hp, hj]
      omega

omit [DecidableEq τ] in
theorem Inv.reopen (h : Inv s cur holder used free N) (hidle : ∀ u, s.phase u = .idle) :
    Inv { s with store := s.store.reopen.withMember ⟨0⟩ } cur holder used free N := by
  refine ⟨h.alloc.frame_all fun _ => rfl, h.content, h.distinct, h.complete, fun _ => .inl rfl, fun u => ?_, h.placed,
    fun u k hk => ?_, fun r hr => (h.live r hr).congr rfl, h.records⟩
  · show Knows _ cur holder u (s.phase u)
    rw [hidle u]
    trivial
  · have hk' : (s.phase u).drawn = some k := hk
    rw [hidle u] at hk'
    cases hk'

/-! ## Runs -/

omit [DecidableEq τ] in
theorem init_inv (h : Init s) : Inv s (fun _ => ⟨[], [], [], false⟩) (fun _ => none) [] [] 1 := by
  obtain ⟨hs, hidle, hlive, hstored⟩ := h
  refine ⟨hs ▸ newDataStore_blobs, nofun, fun _ => List.nodup_nil, fun _ => nofun,
    fun p => .inl (by rw [hs]; rfl), fun u => ?_,
    fun u v w w' p hu => ?_, fun u k hk => ?_, ?_, ?_⟩
  · rw [hidle u]
    trivial
  · rw [hidle u] at hu
    cases hu
  · rw [hidle u] at hk
    cases hk
  · rw [hlive]
    exact nofun
  · rw [hlive]
    exact List.nodup_nil

theorem Inv.step (h : Inv s cur holder used free N) {e : Event τ} (hok : FreshID s e) (hstep : Step s e s') :
    ∃ cur' holder' used' free' N', Inv s' cur' holder' used' free' N' := by
  cases hstep with
  | @takeBlobID t key value k store ht hkey hvalue hrun =>
    obtain ⟨hk, rfl⟩ := takeBlobID_does _ _ hrun
    have hfresh : IDFree s k := hk ▸ hok
    exact ⟨_, _, _, _, _, h.takeBlobID hfresh hk ht hkey fun hnil => by simp [hnil] at hvalue⟩
  | newBlobPage ht _ hrun =>
    obtain ⟨used', free', N', h'⟩ := h.newBlobPage ht hrun
    exact ⟨_, _, used', free', N', h'⟩
  | write ht hrun => exact ⟨_, _, _, _, _, h.write ht hrun⟩
  | letGo ht hrest hw hrun => exact ⟨_, _, _, _, _, h.letGo ht hrest hw hrun⟩
  | raiseHead ht hrun hbytes => exact ⟨_, _, _, _, _, h.raiseHead ht hrun hbytes⟩
  | insertRecord ht =>
    obtain ⟨k, h'⟩ := h.insertRecord ht
    exact ⟨_, _, _, _, _, h'⟩
  | @getBlob t key bytes ht hr =>
    obtain ⟨k, first, -, -, -, -, hbytes, -⟩ := h.live _ hr
    refine ⟨_, _, _, _, _, h.pass rfl rfl rfl (by rw [ht]; rfl) ?_ ?_⟩
    · rw [getBlobAt, (pageIDOf_bytesOf hbytes).1]
      rfl
    · rw [getBlobAt, (pageIDOf_bytesOf hbytes).1]
      trivial
  | @readHead t key page p store ht hrun =>
    obtain ⟨hb, hpage, hlatch, hmember⟩ := look_does _ _ hrun
    refine ⟨_, _, _, _, _, h.pass hpage hlatch hmember (by rw [ht]; rfl) ?_ (h.afterHead hb)⟩
    exact afterHead_drawn key p
  | @readNext t key k page blob p store ht hrun =>
    obtain ⟨hb, hpage, hlatch, hmember⟩ := look_does _ _ hrun
    refine ⟨_, _, _, _, _, h.pass hpage hlatch hmember (by rw [ht]; rfl) ?_ (h.afterNext (ht ▸ h.knows t) hb)⟩
    exact afterNext_drawn key k blob p
  | @ret t key blob ht => exact ⟨_, _, _, _, _, h.pass rfl rfl rfl (by rw [ht]; rfl) rfl trivial⟩
  | removeRecord ht hr =>
    obtain ⟨k, h'⟩ := h.removeRecord ht hr
    exact ⟨_, _, _, _, _, h'⟩
  | @readLink t page p store ht hrun =>
    obtain ⟨hb, hpage, hlatch, hmember⟩ := look_does _ _ hrun
    refine ⟨_, _, _, _, _, h.pass hpage hlatch hmember (by rw [ht]; rfl) rfl ?_⟩
    obtain ⟨k, j, data, hh, hj, hpres⟩ : Knows s cur holder t (.removing (some page)) := ht ▸ h.knows t
    obtain ⟨b, hb', -, -, -, hnext, -⟩ := hpres j page data le_rfl hj
    obtain rfl : b = p := by simpa [pageAs, hb', FilePage.asBlob] using hb
    exact ⟨k, j, data, hh, hj, hnext, hpres⟩
  | deleteBlobPage ht hrun =>
    obtain ⟨used', free', h'⟩ := h.deleteBlobPage ht hrun
    exact ⟨_, _, used', free', _, h'⟩
  | removed ht => exact ⟨_, _, _, _, _, h.pass rfl rfl rfl (by rw [ht]; rfl) rfl trivial⟩
  | reopen hidle => exact ⟨_, _, _, _, _, h.reopen hidle⟩

end

end MisakiDB.BlobThreads
