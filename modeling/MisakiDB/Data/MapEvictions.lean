import MisakiDB.Buffer.Unread
import MisakiDB.Data.FreeSpace
/-!
# The map in a pool that evicts

`allocateDataPage` unpins a map page that it changed as clean, and writes a new map
page after it was unpinned; `addFreeSpace` sets the dirty bit. So the reservations
on a map page are lost when it is evicted before space was returned to it. In runs
without such an eviction every call returns the page that it returns in a pool that
never evicts: `same_pages`.
-/

namespace MisakiDB.MapEvictions

open Prog DataFileManager DataAccessor

abbrev TrackedFiles := Tracked PageKey FilePage DataAccessor

abbrev FilesCache := Cache PageKey FilePage DataAccessor

/-- The pages of the map, without its header. -/
def mapPages (k : PageKey) : Bool := k.1 = .FREE_SPACE_MAP ∧ k.2 ≠ 0

/-- The data pages, which only the callers read. -/
def dataPages (k : PageKey) : Bool := k.1 = .DATA ∧ k.2 ≠ 0

theorem not_dataPages {k : PageKey} (h : mapPages k = true) : dataPages k = false := by
  unfold mapPages at h
  unfold dataPages
  rw [decide_eq_true_iff] at h
  simp [h.1]

@[simp] theorem mapPages_mapKey {i : Nat} : mapPages (mapKey i) = true ↔ i ≠ 0 := by simp [mapPages, mapKey]

@[simp] theorem dataPages_dataKey {p : Nat} : dataPages (dataKey p) = true ↔ p ≠ 0 := by simp [dataPages, dataKey]

@[simp] theorem dataPages_mapKey {i : Nat} : dataPages (mapKey i) = false := by simp [dataPages, mapKey]

/-! ## Calls -/

inductive PoolCall
  | allocateDataPage (recordSize : Nat)
  | addFreeSpace (pageID recordSize : Nat)
  /-- A caller lets a page go that it was given. -/
  | unpinDataPage (pageID : Nat) (isDirty : Bool)

/-- A call, with the page it returns. -/
def PoolCall.prog : PoolCall → DataProg (Option PageIDType)
  | .allocateDataPage recordSize => do
    let dataPageID ← DataFileManager.allocateDataPage recordSize
    pure (some dataPageID)
  | .addFreeSpace pageID recordSize => do
    DataFileManager.addFreeSpace pageID recordSize
    pure none
  | .unpinDataPage pageID isDirty => do
    unpinPage (dataKey pageID) isDirty
    pure none

def runCalls : List PoolCall → DataProg (List (Option PageIDType))
  | [] => pure []
  | c :: cs => do
    let r ← c.prog
    let rs ← runCalls cs
    pure (r :: rs)

/-! ## What the calls promise -/

/-- The header counts itself. -/
def CountsItself (k : PageKey) (p : FilePage) : Prop := k = mapKey 0 → ∀ n, p = .mapHeader n → n ≠ 0

/-- Pins are held on `P`, and of the pages that are not spared only those of `U` have
changes to save. -/
abbrev Promised (P U : Multiset PageKey) (t : TrackedFiles) : Prop := Tidy mapPages CountsItself P U t

abbrev trackedFiles : Handler (PageOp PageKey FilePage DataAccessor) PageOp.Res TrackedFiles := Tracked.exec mapPages

section Promises
variable {P U : Multiset PageKey} {t : TrackedFiles}

theorem wlp_view_tracked {α : Type} {k : PageKey} {view : FilePage → Option α} (h : Promised P U t) (hk : k ∈ P) :
    wlp trackedFiles (do demand (view (← getData k)))
      (fun a t' => (∃ p, CountsItself k p ∧ view p = some a) ∧ Promised P U t') t := by
  refine (h.get hk).seq_and fun p t hI h => ?_
  rcases hv : view p with _ | a
  · exact wlp_fail
  · exact (wlp_pure a).2 ⟨⟨p, hI, hv⟩, h⟩

theorem searchMapPage_promised (h : Promised P U t) (n : Nat) {i : Nat} (hi : i ≠ 0) :
    wlp trackedFiles (searchMapPage n i) (fun o t' => (∀ p, o = some p → p ≠ 0) ∧ Promised P U t') t := by
  have hspared : mapPages (mapKey i) = true := mapPages_mapKey.2 hi
  unfold searchMapPage
  refine (h.fetch _).seq fun _ t h => ?_
  refine (wlp_view_tracked h (Multiset.mem_cons_self _ _)).seq_and fun m t _ h => ?_
  split
  · refine (h.set_spared hspared (h.is_here (Multiset.mem_cons_self _ _)) fun h0 => ?_).seq fun _ t h => ?_
    · exact absurd (mapKey_inj.1 h0) hi
    refine (h.unpin_kept (.inl hspared)).seq_and fun _ t h _ => (wlp_pure _).2 ⟨?_, h⟩
    rintro p hp
    obtain rfl := Option.some.inj hp
    exact Nat.succ_ne_zero _
  · exact (h.unpin_kept (.inl hspared)).seq_and fun _ t h _ => (wlp_pure _).2 ⟨nofun, h⟩

theorem searchMap_promised (h : Promised P U t) (n : Nat) {rest i : Nat} (hi : i ≠ 0) :
    wlp trackedFiles (searchMap n rest i) (fun o t' => (∀ p, o = some p → p ≠ 0) ∧ Promised P U t') t := by
  induction rest generalizing t i with
  | zero => exact (wlp_pure _).2 ⟨nofun, h⟩
  | succ rest ih =>
    refine (searchMapPage_promised h n hi).seq ?_
    rintro (_ | p) t ⟨hp, h⟩
    · exact ih h (Nat.succ_ne_zero i)
    · exact (wlp_pure _).2 ⟨hp, h⟩

theorem reserve_promised (h : Promised P U t) (hU : mapKey 0 ∉ U) (n : Nat) :
    wlp trackedFiles (reserve n) (fun p t' => p ≠ 0 ∧ Promised P U t') t := by
  unfold reserve
  refine (h.fetch _).seq fun _ t h => (h.wLatch _).seq fun _ t h => ?_
  refine (wlp_view_tracked h (Multiset.mem_cons_self _ _)).seq ?_
  rintro next t ⟨⟨p, hI, hp⟩, h⟩
  have hnext : next ≠ 0 := by
    cases p with
    | mapHeader m =>
      obtain rfl := Option.some.inj hp
      exact hI rfl m rfl
    | _ => cases hp
  have hspared : mapPages (mapKey next) = true := mapPages_mapKey.2 hnext
  refine (searchMap_promised h n Nat.one_ne_zero).seq ?_
  rintro (_ | q) t ⟨hq, h⟩
  · -- the new map page is written after its last unpin, while it is still here
    refine (h.append fun h0 => absurd (mapKey_inj.1 h0) hnext).seq fun _ t h => ?_
    have hhere := h.is_here (Multiset.mem_cons_self _ _)
    refine (h.unpin_kept (.inl hspared)).seq_and fun _ t h hsame => ?_
    refine (h.set_spared hspared (by rw [hsame]; exact hhere) fun h0 => absurd (mapKey_inj.1 h0) hnext).seq fun _ t h => ?_
    refine (h.set (Multiset.mem_cons_self _ _) fun _ m hm => ?_).seq fun _ t h => ?_
    · obtain rfl := FilePage.mapHeader.inj hm
      exact Nat.succ_ne_zero next
    exact (h.wUnlatch _).seq fun _ t h => h.unpin.seq fun _ t h => (wlp_pure _).2 ⟨Nat.succ_ne_zero _, h⟩
  · refine (h.wUnlatch _).seq fun _ t h => ?_
    exact (h.unpin_clean fun h0 => absurd h0 hU).seq fun _ t h => (wlp_pure _).2 ⟨hq q rfl, h⟩

/-- The page comes pinned. -/
theorem obtain_pinned (h : Promised P U t) (hU : dataKey 0 ∉ U) {p : Nat} :
    wlp trackedFiles (DataFileManager.obtain p) (fun _ t' => Promised (dataKey p ::ₘ P) (dataKey p ::ₘ U) t') t := by
  unfold DataFileManager.obtain
  refine (h.fetch _).seq fun _ t h => (h.wLatch _).seq fun _ t h => ?_
  refine (wlp_view_tracked h (Multiset.mem_cons_self _ _)).seq_and fun next t _ h => ?_
  split
  · refine (h.append fun h0 => absurd h0 (by simp)).seq fun _ t h => ?_
    refine (h.set (Multiset.mem_cons_self _ _) fun h0 => absurd h0 (by simp)).seq fun _ t h => ?_
    refine (h.set (Multiset.mem_cons_of_mem (Multiset.mem_cons_self _ _)) fun h0 => absurd h0 (by simp)).seq fun _ t h => ?_
    exact (h.wUnlatch _).seq fun _ t h => h.swap.unpin
  · refine (h.fetch _).seq fun _ t h => (h.wUnlatch _).seq fun _ t h => ?_
    exact wlp_conseq (h.swap.unpin_clean fun h0 => absurd h0 hU) fun _ _ h => h.mono (Multiset.subset_cons _ _)

theorem obtain_promised (h : Promised P U t) (hU : dataKey 0 ∉ U) {p : Nat} :
    wlp trackedFiles (DataFileManager.obtain p) (fun _ t' => Promised P (dataKey p ::ₘ U) t') t :=
  wlp_conseq (obtain_pinned h hU) fun _ _ h => h.forget

theorem addFreeSpace_promised (h : Promised P U t) (p n : Nat) :
    wlp trackedFiles (DataFileManager.addFreeSpace p n) (fun _ t' => Promised P U t') t := by
  have hi : convertToMapPageID p ≠ 0 := Nat.succ_ne_zero _
  unfold DataFileManager.addFreeSpace
  refine (h.fetch _).seq fun _ t h => (h.wLatch _).seq fun _ t h => ?_
  refine (wlp_view_tracked h (Multiset.mem_cons_self _ _)).seq_and fun m t _ h => ?_
  refine (h.set (Multiset.mem_cons_self _ _) fun h0 => absurd (mapKey_inj.1 h0) hi).seq fun _ t h => ?_
  exact (h.wUnlatch _).seq fun _ t h => h.unpin

/-- Between two calls: of the pages that are not spared only data pages have changes. -/
def Between (t : TrackedFiles) : Prop := ∃ U, (∀ k ∈ U, dataPages k = true) ∧ Promised 0 U t

theorem allocateDataPage_between (h : Between t) (n : Nat) :
    wlp trackedFiles (DataFileManager.allocateDataPage n) (fun p t' => p ≠ 0 ∧ Between t') t := by
  obtain ⟨U, hU, h⟩ := h
  have hmap : mapKey 0 ∉ U := fun h0 => by simpa using hU _ h0
  have hdata : dataKey 0 ∉ U := fun h0 => by simpa using hU _ h0
  unfold DataFileManager.allocateDataPage
  refine (reserve_promised h hmap n).seq_and fun p t hp h => (obtain_promised h hdata).seq fun _ t h => ?_
  refine (wlp_pure p).2 ⟨hp, _, fun k hk => ?_, h⟩
  rcases Multiset.mem_cons.1 hk with rfl | hk
  · exact dataPages_dataKey.2 hp
  · exact hU k hk

theorem addFreeSpace_between (h : Between t) (p n : Nat) :
    wlp trackedFiles (DataFileManager.addFreeSpace p n) (fun _ t' => Between t') t := by
  obtain ⟨U, hU, h⟩ := h
  exact wlp_conseq (addFreeSpace_promised h p n) fun _ _ h => ⟨U, hU, h⟩

end Promises

/-! ## What the calls read -/

theorem uses_view {α : Type} {k : PageKey} (hk : dataPages k = false) (view : FilePage → Option α) :
    Uses (Unread dataPages) (do demand (view (← getData k)) : DataProg α) := by
  refine .bind (.perform (o := PageOp.getData k) hk) fun p => ?_
  cases view p with
  | none => exact .fail
  | some a => exact .ret a

theorem uses_op {o : PageOp PageKey FilePage DataAccessor} (ho : Unread dataPages o) {α : Type} {f : o.Res → DataProg α}
    (hf : ∀ r, Uses (Unread dataPages) (f r)) : Uses (Unread dataPages) (perform o >>= f) := .bind (.perform ho) hf

theorem uses_searchMapPage (n i : Nat) : Uses (Unread dataPages) (searchMapPage n i) := by
  unfold searchMapPage
  refine uses_op (o := PageOp.fetchPage _) trivial fun _ => .bind (uses_view dataPages_mapKey _) fun m => ?_
  split
  · exact uses_op (o := PageOp.setData _ _) trivial fun _ => uses_op (o := PageOp.unpinPage _ _) trivial fun _ => .ret _
  · exact uses_op (o := PageOp.unpinPage _ _) trivial fun _ => .ret _

theorem uses_searchMap (n rest i : Nat) : Uses (Unread dataPages) (searchMap n rest i) := by
  induction rest generalizing i with
  | zero => exact .ret _
  | succ rest ih =>
    refine .bind (uses_searchMapPage n i) ?_
    rintro (_ | p)
    · exact ih (i + 1)
    · exact .ret _

theorem uses_reserve (n : Nat) : Uses (Unread dataPages) (reserve n) := by
  unfold reserve
  refine uses_op (o := PageOp.fetchPage _) trivial fun _ => uses_op (o := PageOp.wLatch _) trivial fun _ => ?_
  refine .bind (uses_view dataPages_mapKey _) fun next => .bind (uses_searchMap _ _ _) ?_
  rintro (_ | p)
  · refine uses_op (o := PageOp.appendNewPage _) trivial fun _ =>
      uses_op (o := PageOp.unpinPage _ _) trivial fun _ => ?_
    refine uses_op (o := PageOp.setData _ _) trivial fun _ => uses_op (o := PageOp.setData _ _) trivial fun _ => ?_
    exact uses_op (o := PageOp.wUnlatch _) trivial fun _ => uses_op (o := PageOp.unpinPage _ _) trivial fun _ => .ret _
  · exact uses_op (o := PageOp.wUnlatch _) trivial fun _ => uses_op (o := PageOp.unpinPage _ _) trivial fun _ => .ret _

theorem uses_obtain (p : Nat) : Uses (Unread dataPages) (DataFileManager.obtain p) := by
  unfold DataFileManager.obtain
  refine uses_op (o := PageOp.fetchPage _) trivial fun _ => uses_op (o := PageOp.wLatch _) trivial fun _ => ?_
  refine .bind (uses_view (by simp [dataPages, dataKey]) _) fun next => ?_
  split
  · refine uses_op (o := PageOp.appendNewPage _) trivial fun _ => uses_op (o := PageOp.setData _ _) trivial fun _ => ?_
    refine uses_op (o := PageOp.setData _ _) trivial fun _ => uses_op (o := PageOp.wUnlatch _) trivial fun _ => ?_
    exact .perform (o := PageOp.unpinPage _ _) trivial
  · refine uses_op (o := PageOp.fetchPage _) trivial fun _ => uses_op (o := PageOp.wUnlatch _) trivial fun _ => ?_
    exact .perform (o := PageOp.unpinPage _ _) trivial

theorem uses_allocateDataPage (n : Nat) : Uses (Unread dataPages) (DataFileManager.allocateDataPage n) :=
  .bind (uses_reserve n) fun p => .bind (uses_obtain p) fun _ => .ret p

theorem uses_addFreeSpace (p n : Nat) : Uses (Unread dataPages) (DataFileManager.addFreeSpace p n) := by
  unfold DataFileManager.addFreeSpace
  refine uses_op (o := PageOp.fetchPage _) trivial fun _ => uses_op (o := PageOp.wLatch _) trivial fun _ => ?_
  refine .bind (uses_view dataPages_mapKey _) fun m => uses_op (o := PageOp.setData _ _) trivial fun _ => ?_
  exact uses_op (o := PageOp.wUnlatch _) trivial fun _ => .perform (o := PageOp.unpinPage _ _) trivial

/-! ## The pool as the store -/

/-- Between two calls the pool stands for the store, and its header is not pinned. -/
structure Follows (s : DataStore) (d : FilesCache) : Prop where
  shadows : ∃ t : TrackedFiles, t.store = s ∧ Between t ∧ Shadows mapPages dataPages t d
  unpinned : s.pins (dataKey 0) = 0

variable {s s' : DataStore} {d : FilesCache} {choose : Nat → List PageKey} {cs : List PoolCall}
  {rs : List (Option PageIDType)}

theorem Follows.prog {α : Type} {p : DataProg α} {a : α} {Q : α → Prop} (h : Follows s d)
    (hu : Uses (Unread dataPages) p)
    (hp : ∀ t, Between t → wlp trackedFiles p (fun a t' => Q a ∧ Between t') t)
    (hpins : Q a → s'.pins (dataKey 0) = s.pins (dataKey 0))
    (hrun : run PageStore.exec p s = some (a, s')) (hgo : Cache.stops mapPages choose p d = false) :
    ∃ d', run (Cache.exec choose) p d = some (a, d') ∧ Follows s' d' := by
  obtain ⟨⟨t, rfl, hb, hs⟩, hzero⟩ := h
  obtain ⟨t', ht, rfl⟩ := Tracked.run_store mapPages p t hrun
  obtain ⟨hq, U, hU, htidy⟩ := hp t hb a t' ht
  obtain ⟨d', hd, hs'⟩ := hs.run hu ht htidy.ok (fun _ => not_dataPages) hgo
  exact ⟨d', hd, ⟨t', rfl, ⟨U, hU, htidy⟩, hs'⟩, by rw [hpins hq, hzero]⟩

theorem Follows.unpin (h : Follows s d) {p : Nat} {b : Bool} {r : Option PageIDType}
    (hrun : run PageStore.exec (PoolCall.unpinDataPage p b).prog s = some (r, s')) :
    ∃ d', run (Cache.exec choose) (PoolCall.unpinDataPage p b).prog d = some (r, d') ∧ Follows s' d' := by
  have hback : wlp PageStore.exec (PoolCall.unpinDataPage p b).prog (fun a u => a = none ∧ 0 < s.pins (dataKey p) ∧
      u = s.setPins (dataKey p) (s.pins (dataKey p) - 1)) s := by
    simp only [PoolCall.prog, wlp_bind, PageStore.wlp_unpinPage, wlp_pure]
    exact fun hpos => ⟨trivial, hpos, trivial⟩
  obtain ⟨rfl, hpos, rfl⟩ := hback _ _ hrun
  obtain ⟨⟨t, rfl, ⟨U, hU, htidy⟩, hs⟩, hzero⟩ := h
  have hp : p ≠ 0 := by
    rintro rfl
    omega
  -- whatever the caller says, the page counts as saved: nobody reads it
  obtain ⟨d', hd, hs'⟩ : ∃ d', Cache.exec choose (.unpinPage (dataKey p) b) d = some ((), d') ∧
      Shadows mapPages dataPages (t.unpinned mapPages (dataKey p) true) d' :=
        hs.unpin (dataPages_dataKey.2 hp) hpos htidy.ok b
  have htidy' : Promised 0 U (t.unpinned mapPages (dataKey p) true) := by
    have hexec : run trackedFiles (unpinPage (dataKey p) true) t = some ((), t.unpinned mapPages (dataKey p) true) := by
      simp [unpinPage, perform, run, Tracked.exec, hpos]
    exact ((htidy.claim hpos).mono (Multiset.subset_cons U _)).unpin _ _ hexec
  refine ⟨d', ?_, ⟨_, rfl, ⟨U, hU, htidy'⟩, hs'⟩, ?_⟩
  · simp [PoolCall.prog, run_bind, unpinPage, perform, run, hd]
    rfl
  · have hne : dataKey 0 ≠ dataKey p := fun h0 => hp (dataKey_inj.1 h0).symm
    exact (Function.update_of_ne hne _ _).trans hzero

theorem Follows.call (h : Follows s d) {c : PoolCall} {r : Option PageIDType}
    (hrun : run PageStore.exec c.prog s = some (r, s'))
    (hgo : Cache.stops mapPages choose c.prog d = false) :
    ∃ d', run (Cache.exec choose) c.prog d = some (r, d') ∧ Follows s' d' := by
  cases c with
  | allocateDataPage n =>
    have hheld : wlp PageStore.exec (PoolCall.allocateDataPage n).prog (fun r u => ∀ p, r = some p → p ≠ 0 →
        u.pins (dataKey 0) = s.pins (dataKey 0)) s := by
      refine (allocateDataPage_held n).seq fun p u hu => (wlp_pure _).2 fun q hq hne => ?_
      obtain rfl := Option.some.inj hq
      rw [hu.1, Function.update_of_ne]
      exact fun h0 => hne (dataKey_inj.1 h0).symm
    refine h.prog (Q := fun r => ∃ p, r = some p ∧ p ≠ 0) (.bind (uses_allocateDataPage n) fun p => .ret _)
      (fun t ht => (allocateDataPage_between ht n).seq_and fun p t hp ht =>
        (wlp_pure _).2 ⟨⟨p, rfl, hp⟩, ht⟩) ?_ hrun hgo
    rintro ⟨p, rfl, hp⟩
    exact hheld _ _ hrun p rfl hp
  | addFreeSpace p n =>
    have hheld : wlp PageStore.exec (PoolCall.addFreeSpace p n).prog (fun _ u => u.pins = s.pins) s :=
      (addFreeSpace_held p n).seq fun _ u hu => (wlp_pure _).2 hu.1
    refine h.prog (Q := fun _ => True) (.bind (uses_addFreeSpace p n) fun _ => .ret _)
      (fun t ht => (addFreeSpace_between ht p n).seq fun _ t ht => (wlp_pure _).2 ⟨trivial, ht⟩) ?_ hrun hgo
    intro _
    rw [hheld _ _ hrun]
  | unpinDataPage p b => exact h.unpin hrun

theorem Follows.calls (h : Follows s d) (hrun : run PageStore.exec (runCalls cs) s = some (rs, s'))
    (hgo : Cache.stops mapPages choose (runCalls cs) d = false) :
    ∃ d', run (Cache.exec choose) (runCalls cs) d = some (rs, d') ∧ Follows s' d' := by
  induction cs generalizing s d rs with
  | nil =>
    obtain ⟨rfl, rfl⟩ := Prod.mk.inj (Option.some.inj hrun)
    exact ⟨d, rfl, h⟩
  | cons c cs ih =>
    rw [runCalls, run_bind, Option.bind_eq_some_iff] at hrun
    obtain ⟨⟨r, s₁⟩, hcall, hrun⟩ := hrun
    rw [run_bind, Option.bind_eq_some_iff] at hrun
    obtain ⟨⟨rs', s₂⟩, hrest, hrun⟩ := hrun
    obtain ⟨rfl, rfl⟩ := Prod.mk.inj (Option.some.inj hrun)
    rw [runCalls, stops_bind] at hgo
    obtain ⟨d₁, hd₁, h₁⟩ := h.call hcall hgo.1
    have hgo' := hgo.2 _ _ hd₁
    rw [stops_bind] at hgo'
    obtain ⟨d₂, hd₂, h₂⟩ := ih h₁ hrest hgo'.1
    refine ⟨d₂, ?_, h₂⟩
    rw [runCalls, run_bind, hd₁]
    show run (Cache.exec choose) (runCalls cs >>= _) d₁ = _
    rw [run_bind, hd₂]
    rfl

theorem newDataStore_follows : Follows newDataStore (Cache.ofFiles newDataStore) := by
  refine ⟨⟨Tracked.ofStore newDataStore, rfl, ⟨0, by simp, ⟨rfl, fun k => Nat.zero_le _, fun k hk => ?_, fun k hk => ?_, ?_⟩⟩,
    .ofFiles fun _ => rfl⟩, rfl⟩
  · cases hk
  · exact absurd hk (Nat.lt_irrefl 0)
  · rintro k p hp rfl n rfl
    obtain rfl : 1 = n := by simpa [Tracked.ofStore, newDataStore] using hp
    exact Nat.one_ne_zero

/-- Calls on a new database, in a pool that evicts no map page that has changes and a
clear dirty bit: they return what they return in a pool that never evicts, and find
the same map. -/
theorem same_pages (hrun : run PageStore.exec (runCalls cs) newDataStore = some (rs, s'))
    (hgo : Cache.stops mapPages choose (runCalls cs) (Cache.ofFiles newDataStore) = false) :
    ∃ d, run (Cache.exec choose) (runCalls cs) (Cache.ofFiles newDataStore) = some (rs, d) ∧
      ∀ i, d.store.page (mapKey i) = s'.page (mapKey i) := by
  obtain ⟨d, hd, ⟨t, rfl, -, hs⟩, -⟩ := newDataStore_follows.calls hrun hgo
  exact ⟨d, hd, fun i => hs.page dataPages_mapKey⟩

/-- Two pages are filled. The pool keeps nothing but map pages when it may choose. -/
theorem same_pages_two : ∃ d, run (Cache.exec fun _ => [dataKey 0, mapKey 0, dataKey 1, dataKey 2])
      (runCalls [.allocateDataPage 4085, .unpinDataPage 1 false, .allocateDataPage 30, .unpinDataPage 2 true])
      (Cache.ofFiles newDataStore) = some ([some 1, none, some 2, none], d) := by
  have heval : (run PageStore.exec
      (runCalls [.allocateDataPage 4085, .unpinDataPage 1 false, .allocateDataPage 30, .unpinDataPage 2 true])
      newDataStore).map Prod.fst = some [some 1, none, some 2, none] := by decide +kernel
  obtain ⟨⟨rs, s'⟩, hrun, rfl⟩ := Option.map_eq_some_iff.1 heval
  have hgo : Cache.stops mapPages (fun _ => [dataKey 0, mapKey 0, dataKey 1, dataKey 2])
      (runCalls [.allocateDataPage 4085, .unpinDataPage 1 false, .allocateDataPage 30, .unpinDataPage 2 true])
      (Cache.ofFiles newDataStore) = false := by decide +kernel
  obtain ⟨d, hd, -⟩ := same_pages hrun hgo
  exact ⟨d, hd⟩

/-- The second call searches a map page that has lost the first reservation. -/
theorem reservation_lost : ¬ ∀ (choose : Nat → List PageKey) (cs : List PoolCall) rs s',
    run PageStore.exec (runCalls cs) newDataStore = some (rs, s') →
    ∃ d, run (Cache.exec choose) (runCalls cs) (Cache.ofFiles newDataStore) = some (rs, d) := by
  intro h
  have heval : (run PageStore.exec (runCalls [.allocateDataPage 4085, .allocateDataPage 4085]) newDataStore).map Prod.fst =
      some [some 1, some 2] := by decide +kernel
  have hlost : (run (Cache.exec fun _ => [mapKey 1]) (runCalls [.allocateDataPage 4085, .allocateDataPage 4085])
      (Cache.ofFiles newDataStore)).map Prod.fst = some [some 1, some 1025] := by decide +kernel
  obtain ⟨⟨rs, s'⟩, hrun, rfl⟩ := Option.map_eq_some_iff.1 heval
  obtain ⟨d, hd⟩ := h (fun _ => [mapKey 1]) _ _ _ hrun
  rw [hd] at hlost
  simp at hlost

end MisakiDB.MapEvictions
