import MisakiDB.Data.MapEvictions
/-!
# Record calls in a pool that evicts

The calls of `DataAccessor` let every data page and every blob page that they changed
go as dirty: only the map pages are at risk. So in a pool that keeps these the calls
do what they do on the store: `StandsBy.run`.
-/

namespace MisakiDB.MapEvictions

open Prog DataFileManager DataAccessor

section Promises
variable {P U : Multiset PageKey} {t : TrackedFiles}

theorem counts_blob {q : Nat} {p : FilePage} : CountsItself (blobKey q) p := fun h => absurd h (by simp)

theorem counts_data {q : Nat} {p : FilePage} : CountsItself (dataKey q) p := fun h => absurd h (by simp)

theorem wlp_demand_tracked {α : Type} {o : Option α} {Q : α → TrackedFiles → Prop} (h : ∀ a, o = some a → Q a t) :
    wlp trackedFiles (demand o) Q t := by
  cases o with
  | none => exact wlp_fail
  | some a => exact (wlp_pure a).2 (h a rfl)

/-! ## Blob pages -/

/-- The page that is found is initialised, and stays pinned. -/
theorem initBlobPage_promised {q : Nat} (h : Promised (blobKey q ::ₘ blobKey 0 ::ₘ P) (blobKey 0 ::ₘ U) t) :
    wlp trackedFiles (do
      setData (blobKey q) (.blob (← getBlobPage q).init)
      wUnlatch (blobKey q)
      wUnlatch (blobKey 0)
      unpinPage (blobKey 0) true
      pure q) (fun q t' => Promised (blobKey q ::ₘ P) (blobKey q ::ₘ U) t') t := by
  refine (wlp_view_tracked h (Multiset.mem_cons_self _ _)).seq_and fun p t _ h => ?_
  refine (h.set (Multiset.mem_cons_self _ _) counts_blob).seq fun _ t h => ?_
  refine (h.wUnlatch _).seq fun _ t h => (h.wUnlatch _).seq fun _ t h => ?_
  exact h.swap.swap_unsaved.unpin.seq fun _ t h => (wlp_pure q).2 h

theorem newBlobPage_promised (h : Promised P U t) :
    wlp trackedFiles newBlobPage (fun q t' => Promised (blobKey q ::ₘ P) (blobKey q ::ₘ U) t') t := by
  unfold newBlobPage
  refine (h.fetch _).seq fun _ t h => (h.wLatch _).seq fun _ t h => ?_
  refine (wlp_view_tracked h (Multiset.mem_cons_self _ _)).seq_and fun header t _ h => ?_
  have hheader : ∀ q, blobKey 0 ∈ blobKey q ::ₘ blobKey 0 ::ₘ P := fun q =>
    Multiset.mem_cons_of_mem (Multiset.mem_cons_self _ _)
  cases header.freePageListHeader with
  | none =>
    refine (h.append counts_blob).seq fun _ t h => (h.wLatch _).seq fun _ t h => ?_
    refine (h.set (hheader _) counts_blob).seq fun _ t h => ?_
    exact initBlobPage_promised h
  | some free =>
    refine (h.fetch _).seq fun _ t h => (h.wLatch _).seq fun _ t h => ?_
    refine (wlp_view_tracked h (Multiset.mem_cons_self _ _)).seq_and fun p t _ h => ?_
    refine (h.set (hheader _) counts_blob).seq fun _ t h => ?_
    exact initBlobPage_promised h

theorem deleteBlobPage_promised (h : Promised P 0 t) (p : Nat) :
    wlp trackedFiles (deleteBlobPage p) (fun _ t' => Promised P 0 t') t := by
  unfold deleteBlobPage
  refine (h.fetch _).seq fun _ t h => (h.wLatch _).seq fun _ t h => ?_
  refine (wlp_view_tracked h (Multiset.mem_cons_self _ _)).seq_and fun header t _ h => ?_
  split
  · exact (h.wUnlatch _).seq fun _ t h => h.unpin_read.seq fun _ t h => (wlp_pure _).2 h
  · refine (h.fetch _).seq fun _ t h => (h.wLatch _).seq fun _ t h => ?_
    refine (wlp_view_tracked h (Multiset.mem_cons_self _ _)).seq_and fun page t _ h => ?_
    split
    · refine (h.wUnlatch _).seq fun _ t h => (h.wUnlatch _).seq fun _ t h => ?_
      exact h.unpin_read.seq fun _ t h => h.unpin_read.seq fun _ t h => (wlp_pure _).2 h
    · refine (h.set (Multiset.mem_cons_self _ _) counts_blob).seq fun _ t h => ?_
      refine (h.set (Multiset.mem_cons_of_mem (Multiset.mem_cons_self _ _)) counts_blob).seq fun _ t h => ?_
      refine (h.wUnlatch _).seq fun _ t h => (h.wUnlatch _).seq fun _ t h => ?_
      exact h.swap_unsaved.unpin.seq fun _ t h => h.unpin.seq fun _ t h => (wlp_pure _).2 h

/-! ## Blobs -/

theorem insertBlobRest_promised (blobID fuel : Nat) {prev : Nat} (value : List Byte)
    (h : Promised (blobKey prev ::ₘ P) (blobKey prev ::ₘ U) t) :
    wlp trackedFiles (insertBlobRest blobID fuel prev value)
      (fun last t' => Promised (blobKey last ::ₘ P) (blobKey last ::ₘ U) t') t := by
  induction fuel generalizing prev value t with
  | zero => exact (wlp_pure _).2 h
  | succ fuel ih =>
    rw [insertBlobRest]
    split
    · exact (wlp_pure _).2 h
    · refine (newBlobPage_promised h).seq fun q t h => (h.wLatch _).seq fun _ t h => ?_
      have hq : blobKey q ∈ blobKey q ::ₘ blobKey prev ::ₘ P := Multiset.mem_cons_self _ _
      refine (wlp_view_tracked h hq).seq_and fun p t _ h => (h.reset hq counts_blob).seq fun _ t h => ?_
      refine (wlp_view_tracked h hq).seq_and fun p t _ h => (h.reset hq counts_blob).seq fun _ t h => ?_
      -- the page before goes, and the new one stays
      have hprev : blobKey prev ∈ blobKey q ::ₘ blobKey prev ::ₘ P :=
        Multiset.mem_cons_of_mem (Multiset.mem_cons_self _ _)
      refine (wlp_view_tracked h hprev).seq_and fun p t _ h =>
        (h.swap_unsaved.reset hprev counts_blob).seq fun _ t h => ?_
      refine (h.wUnlatch _).seq fun _ t h => h.swap.unpin.seq fun _ t h => ?_
      have hq' : blobKey q ∈ blobKey q ::ₘ P := Multiset.mem_cons_self _ _
      refine (wlp_view_tracked h hq').seq_and fun p t _ h => (h.reset hq' counts_blob).seq fun _ t h => ?_
      exact ih _ h

theorem insertBlob_promised (h : Promised P U t) (key value : List Byte) :
    wlp trackedFiles (insertBlob key value) (fun _ t' => Promised P U t') t := by
  unfold insertBlob
  refine h.member.seq fun _ t h => (h.withMember _).seq fun _ t h => ?_
  split
  · exact wlp_fail
  · refine (newBlobPage_promised h).seq fun q t h => (h.wLatch _).seq fun _ t h => ?_
    have hq : blobKey q ∈ blobKey q ::ₘ P := Multiset.mem_cons_self _ _
    refine (wlp_view_tracked h hq).seq_and fun p t _ h => (h.reset hq counts_blob).seq fun _ t h => ?_
    refine (wlp_view_tracked h hq).seq_and fun p t _ h => (h.reset hq counts_blob).seq fun _ t h => ?_
    refine (wlp_view_tracked h hq).seq_and fun p t _ h => (h.reset hq counts_blob).seq fun _ t h => ?_
    refine (wlp_view_tracked h hq).seq_and fun p t _ h => (h.reset hq counts_blob).seq fun _ t h => ?_
    refine (insertBlobRest_promised _ _ _ h).seq fun last t h => ?_
    refine (h.wUnlatch _).seq fun _ t h => h.unpin.seq fun _ t h => ?_
    refine (h.fetch _).seq fun _ t h => (h.wLatch _).seq fun _ t h => ?_
    refine (wlp_view_tracked h hq).seq_and fun p t _ h => (h.set hq counts_blob).seq fun _ t h => ?_
    exact (h.wUnlatch _).seq fun _ t h => h.unpin.seq fun _ t h => wlp_demand_tracked fun _ _ => h

theorem giveUp_promised {q : Nat} (h : Promised (blobKey q ::ₘ P) 0 t) :
    wlp trackedFiles (giveUp q) (fun _ t' => Promised P 0 t') t := by
  unfold giveUp
  exact (h.rUnlatch _).seq fun _ t h => h.unpin_read.seq fun _ t h => (wlp_pure _).2 h

theorem getBlobRest_promised (blobID fuel : Nat) (next : Option Nat) (blob : List Byte) (h : Promised P 0 t) :
    wlp trackedFiles (getBlobRest blobID fuel next blob) (fun _ t' => Promised P 0 t') t := by
  induction fuel generalizing next blob t with
  | zero =>
    cases next with
    | none => exact (wlp_pure _).2 h
    | some page => exact wlp_fail
  | succ fuel ih =>
    cases next with
    | none => exact (wlp_pure _).2 h
    | some page =>
      rw [getBlobRest]
      refine (h.fetch _).seq fun _ t h => (h.rLatch _).seq fun _ t h => ?_
      refine (wlp_view_tracked h (Multiset.mem_cons_self _ _)).seq_and fun p t _ h => ?_
      split
      · exact giveUp_promised h
      split
      · exact giveUp_promised h
      split
      · exact giveUp_promised h
      exact (h.rUnlatch _).seq fun _ t h => h.unpin_read.seq fun _ t h => ih _ _ h

theorem getBlob_promised (fuel : Nat) (key bytes : List Byte) (h : Promised P 0 t) :
    wlp trackedFiles (getBlob fuel key bytes) (fun _ t' => Promised P 0 t') t := by
  unfold getBlob
  cases pageIDOf bytes with
  | none => exact (wlp_pure _).2 h
  | some page =>
    refine (h.fetch _).seq fun _ t h => (h.rLatch _).seq fun _ t h => ?_
    refine (wlp_view_tracked h (Multiset.mem_cons_self _ _)).seq_and fun p t _ h => ?_
    split
    · exact giveUp_promised h
    split
    · exact giveUp_promised h
    split
    · exact giveUp_promised h
    exact (h.rUnlatch _).seq fun _ t h => h.unpin_read.seq fun _ t h => getBlobRest_promised _ _ _ _ h

theorem removeBlobFrom_promised (fuel : Nat) (page : Option Nat) (h : Promised P 0 t) :
    wlp trackedFiles (removeBlobFrom fuel page) (fun _ t' => Promised P 0 t') t := by
  induction fuel generalizing page t with
  | zero =>
    cases page with
    | none => exact (wlp_pure _).2 h
    | some page => exact wlp_fail
  | succ fuel ih =>
    cases page with
    | none => exact (wlp_pure _).2 h
    | some page =>
      rw [removeBlobFrom]
      refine (h.fetch _).seq fun _ t h => (h.rLatch _).seq fun _ t h => ?_
      refine (wlp_view_tracked h (Multiset.mem_cons_self _ _)).seq_and fun p t _ h => ?_
      refine (h.rUnlatch _).seq fun _ t h => h.unpin_read.seq fun _ t h => ?_
      exact (deleteBlobPage_promised h page).seq fun _ t h => ih _ h

/-! ## Records -/

theorem getRecordValue_promised (fuel : Nat) (key : List Byte) (id : RecordIDType) (h : Promised P 0 t) :
    wlp trackedFiles (getRecordValue fuel key id) (fun _ t' => Promised P 0 t') t := by
  unfold getRecordValue
  refine (h.fetch _).seq fun _ t h => (h.rLatch _).seq fun _ t h => ?_
  refine (wlp_view_tracked h (Multiset.mem_cons_self _ _)).seq_and fun p t _ h => ?_
  refine wlp.seq (wlp_demand_tracked fun _ _ => h) ?_
  rintro (_ | ⟨value, isBlob⟩) t h
  · exact (wlp_pure _).2 h.forget
  · refine (h.rUnlatch _).seq fun _ t h => h.unpin_read.seq fun _ t h => ?_
    rw [wlp_ite]
    split
    · exact getBlob_promised fuel key value h
    · exact (wlp_pure _).2 h

theorem removeRecord_promised (fuel : Nat) (id : RecordIDType) (h : Promised P 0 t) :
    wlp trackedFiles (removeRecord fuel id) (fun _ t' => Promised P 0 t') t := by
  unfold removeRecord
  refine (h.fetch _).seq fun _ t h => (h.wLatch _).seq fun _ t h => ?_
  refine (wlp_view_tracked h (Multiset.mem_cons_self _ _)).seq_and fun p t _ h => ?_
  refine wlp.seq (wlp_demand_tracked fun _ _ => h) ?_
  rintro ⟨result, page⟩ t h
  refine (h.set (Multiset.mem_cons_self _ _) counts_data).seq fun _ t h => ?_
  refine (h.wUnlatch _).seq fun _ t h => h.unpin.seq fun _ t h => ?_
  cases result with
  | inl recordSize => exact addFreeSpace_promised h _ _
  | inr bytes => exact (addFreeSpace_promised h _ _).seq fun _ t h => removeBlobFrom_promised fuel _ h

theorem placeRecord_promised (record : List Byte) (isBlob : Bool) (h : Promised P 0 t) :
    wlp trackedFiles (placeRecord record isBlob) (fun _ t' => Promised P 0 t') t := by
  unfold placeRecord DataFileManager.allocateDataPage
  refine wlp.seq ((reserve_promised h nofun _).seq_and fun p t hp h =>
    (obtain_pinned h nofun).seq fun _ t h => (wlp_pure p).2 h) ?_
  intro p t h
  refine (h.wLatch _).seq fun _ t h => ?_
  refine (wlp_view_tracked h (Multiset.mem_cons_self _ _)).seq_and fun page t _ h => ?_
  refine wlp.seq (wlp_demand_tracked fun _ _ => h) ?_
  rintro ⟨slot, page⟩ t h
  refine (h.reset (Multiset.mem_cons_self _ _) counts_data).seq fun _ t h => ?_
  exact (h.wUnlatch _).seq fun _ t h => h.unpin.seq fun _ t h => (wlp_pure _).2 h

theorem insertRecord_promised (key value : List Byte) (h : Promised P 0 t) :
    wlp trackedFiles (insertRecord key value) (fun _ t' => Promised P 0 t') t := by
  unfold insertRecord
  split
  · exact wlp_fail
  split
  · exact (insertBlob_promised h key value).seq fun _ t h => placeRecord_promised _ _ h
  · exact placeRecord_promised _ _ h

end Promises

/-! ## The pool as the store -/

theorem uses_all {α : Type} (p : DataProg α) : Uses (Unread fun _ => false) p := by
  induction p with
  | ret a => exact .ret a
  | call o k ih =>
    refine .call ?_ ih
    cases o with
    | getData k => rfl
    | _ => trivial
  | fail => exact .fail

/-- Between two calls: the pool stands for the store, and owes its files nothing but
map pages. -/
def StandsBy (d : FilesCache) (s : DataStore) : Prop :=
  ∃ t : TrackedFiles, t.store = s ∧ Promised 0 0 t ∧ Shadows mapPages (fun _ => false) t d

namespace StandsBy
variable {s s' : DataStore} {d : FilesCache} {choose : Nat → List PageKey}

/-- A program that is followed by the rules ends on the pool as on the store, if the
pool does not evict a map page with its changes. -/
theorem run {α : Type} {p : DataProg α} {a : α} (h : StandsBy d s)
    (hp : ∀ t, Promised 0 0 t → wlp trackedFiles p (fun _ t' => Promised 0 0 t') t)
    (hrun : Prog.run PageStore.exec p s = some (a, s')) (hgo : Cache.stops mapPages choose p d = false) :
    ∃ d', Prog.run (Cache.exec choose) p d = some (a, d') ∧ StandsBy d' s' := by
  obtain ⟨t, rfl, htidy, hs⟩ := h
  obtain ⟨t', ht, rfl⟩ := Tracked.run_store mapPages p t hrun
  have htidy' := hp t htidy a t' ht
  obtain ⟨d', hd, hs'⟩ := hs.run (uses_all p) ht htidy'.ok (fun _ _ => rfl) hgo
  exact ⟨d', hd, t', rfl, htidy', hs'⟩

theorem page (h : StandsBy d s) (k : PageKey) : d.store.page k = s.page k := by
  obtain ⟨t, rfl, -, hs⟩ := h
  exact hs.page rfl

theorem ofFiles (hpages : ∀ k p, s.page k = some p → CountsItself k p) (hpins : ∀ k, s.pins k = 0) :
    StandsBy (Cache.ofFiles s) s := by
  refine ⟨Tracked.ofStore s, rfl, ⟨rfl, fun k => Nat.zero_le _, fun k hk => ?_, fun k hk => ?_, hpages⟩, .ofFiles hpins⟩
  · cases hk
  · simp [Tracked.ofStore, hpins] at hk

/-- The pool is destroyed, and another one opens the files. -/
theorem reopen (h : StandsBy d s) (m : DataAccessor) :
    StandsBy { d.reopen with member := m } (s.reopen.withMember m) := by
  have hsame : { d.reopen with member := m } = Cache.ofFiles (s.reopen.withMember m) := by
    simp only [Cache.reopen, Cache.ofFiles, Cache.mk.injEq, true_and, and_true]
    exact ⟨funext h.page, rfl, rfl⟩
  rw [hsame]
  obtain ⟨t, rfl, htidy, -⟩ := h
  exact ofFiles htidy.pages fun _ => rfl

theorem newDataStore : StandsBy (Cache.ofFiles newDataStore) newDataStore := by
  refine ofFiles (fun k p hp hk n hn => ?_) fun _ => rfl
  subst hk hn
  obtain rfl : 1 = n := by simpa [DataAccessor.newDataStore] using hp
  exact Nat.one_ne_zero

end StandsBy

end MisakiDB.MapEvictions
