import MisakiDB.Buffer.PoolClients
import Mathlib.Data.Finset.Card
/-!
# Which pages stay in the pool

The replacer gives up the page unpinned longest ago. So a page that somebody holds stays
in its frame as long as the pages in use since, those held at that time and those fetched
or appended later, are no more than the pool has frames (`stays_in_frame`).
-/

namespace MisakiDB.LRUReplacer

theorem victim_frames {r r' : LRUReplacer} (h : Valid r) {f : FrameID} (hv : r.victim = some (f, r')) :
    r'.frames = r.frames.erase f ∧ r.frames = r'.frames ++ [f] := by
  have hspec := victim_spec h
  rw [hv] at hspec
  obtain ⟨-, hfr⟩ := hspec
  have hnd := h.frames_nodup
  rw [hfr] at hnd
  have hnot : f ∉ r'.frames := fun hf => (List.nodup_append.1 hnd).2.2 f hf f (List.mem_singleton_self f) rfl
  refine ⟨?_, hfr⟩
  rw [hfr, List.erase_append_right _ hnot, List.erase_cons_head, List.append_nil]

end MisakiDB.LRUReplacer

namespace MisakiDB.BufferPoolManager

open Runs

variable {κ π Φ : Type}

/-! ## The replacer's list under each operation -/

section Frames
variable {s s' : BufferPoolManager κ π Φ} {k : κ} {f : FrameID}

theorem pinResident_frames (h : Inv s) : (s.pinResident f).replacer.frames = s.replacer.frames.erase f := by
  unfold pinResident
  by_cases hp : (s.pages f).pinCount = 0
  · simp only [hp, if_true]
    exact LRUReplacer.pin_frames h.lru f
  · have hnot : f ∉ s.replacer.frames := fun hf => hp ((h.evictable f).1 hf).2
    simp only [hp, if_false]
    exact (List.erase_of_not_mem hnot).symm

variable [DecidableEq κ]

theorem unpinPage_frames (h : Inv s) (hk : (k, f) ∈ s.pageTable) (d : Bool) :
    (s.unpinPage k d).2.replacer.frames =
      if (s.pages f).pinCount = 1 then f :: s.replacer.frames else s.replacer.frames := by
  unfold unpinPage
  rw [(h.find k f).2 hk]
  by_cases hp : (s.pages f).pinCount = 0
  · have hone : (s.pages f).pinCount ≠ 1 := by omega
    rw [if_neg hone]
    simp only [hp, if_true]
    rfl
  · have hnot : f ∉ s.replacer.frames := fun hf => hp ((h.evictable f).1 hf).2
    by_cases hp1 : (s.pages f).pinCount = 1
    · simp only [hp1, if_true]
      rw [← if_neg (c := f ∈ s.replacer.frames) (t := s.replacer.frames) (e := f :: s.replacer.frames) hnot]
      exact LRUReplacer.unpin_frames h.lru f
    · have hp2 : (s.pages f).pinCount - 1 ≠ 0 := by omega
      simp only [hp, if_false, hp2, if_neg hp1]
      rfl

variable [PageFile Φ κ π]

/-- The vacated frame leaves the replacer's list. If it was listed then it was the last, and
no frame was free. -/
theorem getVictimPage_frames (h : Inv s) (hg : s.getVictimPage = (some f, s')) :
    s'.replacer.frames = s.replacer.frames.erase f ∧
      (f ∈ s.replacer.frames → s.freeList = [] ∧ s.replacer.frames = s'.replacer.frames ++ [f]) := by
  unfold getVictimPage at hg
  cases hl : s.freeList with
  | cons g rest =>
    rw [hl] at hg
    obtain ⟨hgf, rfl⟩ := Prod.mk.inj hg
    obtain rfl := Option.some.inj hgf
    have hnot : g ∉ s.replacer.frames := fun hf => by
      obtain ⟨⟨q, hq⟩, -⟩ := (h.evictable g).1 hf
      exact h.apart g (by simp [hl]) q hq
    exact ⟨(List.erase_of_not_mem hnot).symm, fun hf => absurd hf hnot⟩
  | nil =>
    rw [hl] at hg
    change s.evictPage = (some f, s') at hg
    unfold evictPage at hg
    cases hv : s.replacer.victim with
    | none =>
      rw [hv] at hg
      cases (Prod.mk.inj hg).1
    | some e =>
      obtain ⟨g, r⟩ := e
      rw [hv] at hg
      dsimp only at hg
      have hlist := LRUReplacer.victim_frames h.lru hv
      have hboth : g = f ∧ s'.replacer = r := by
        split at hg
        · obtain ⟨hgf, rfl⟩ := Prod.mk.inj hg
          exact ⟨Option.some.inj hgf, rfl⟩
        · obtain ⟨hgf, rfl⟩ := Prod.mk.inj hg
          exact ⟨Option.some.inj hgf, rfl⟩
      obtain ⟨rfl, hr⟩ := hboth
      rw [hr]
      exact ⟨hlist.1, fun _ => ⟨rfl, hlist.2⟩⟩

/-- The page came into a frame that `getVictimPage` vacated. -/
def Moved (s : BufferPoolManager κ π Φ) (k : κ) (u : BufferPoolManager κ π Φ) : Prop :=
  ∃ f s' p φ, s.getVictimPage = (some f, s') ∧ u = s'.placed k f p φ ∧ p.key = some k ∧ p.pinCount = 1

theorem fetchPage_moved (h : Inv s) (k : κ) :
    (∃ f, (k, f) ∈ s.pageTable ∧ (s.fetchPage k).2 = s.pinResident f) ∨
      (∀ f, (k, f) ∉ s.pageTable) ∧ (s.Moved k (s.fetchPage k).2 ∨ (s.fetchPage k).2 = s) := by
  have hv := getVictimPage_spec h
  unfold fetchPage
  cases hk : s.fetchExistentPage k with
  | some f => exact .inl ⟨f, (h.find k f).1 hk, rfl⟩
  | none =>
    refine .inr ⟨(h.find_none k).1 hk, ?_⟩
    rcases hg : s.getVictimPage with ⟨_ | f, s'⟩
    · rw [hg] at hv
      exact .inr hv.1
    · rw [hg] at hv
      refine .inl ⟨f, s', _, _, hg, loadPage_state k f, rfl, ?_⟩
      rw [(hv.inv.out_clean f rfl).2.2.2.1]

theorem appendNewPage_moved [Inhabited π] (h : Inv s) (k : κ) :
    s.Moved k (s.appendNewPage k).2 ∨ (s.appendNewPage k).2 = s := by
  have hv := getVictimPage_spec h
  unfold appendNewPage
  rcases hg : s.getVictimPage with ⟨_ | f, s'⟩
  · rw [hg] at hv
    exact .inr hv.1
  · rw [hg] at hv
    refine .inl ⟨f, s', _, _, hg, newPage_state k f, rfl, ?_⟩
    rw [(hv.inv.out_clean f rfl).2.2.2.1]

omit [DecidableEq κ] [PageFile Φ κ π] in
/-- With no frame free there are as many pages as frames. -/
theorem Inv.table_length (h : Inv s) (hfree : s.freeList = []) : s.pageTable.length = s.poolSize := by
  have hperm : (s.pageTable.map Prod.snd).Perm (List.range s.poolSize) := by
    refine (List.perm_ext_iff_of_nodup h.frames_nodup List.nodup_range).2 fun f => ?_
    rw [List.mem_range, List.mem_map]
    constructor
    · rintro ⟨e, he, rfl⟩
      exact h.table_lt e he
    · intro hf
      rcases h.placed f hf with hf | ⟨k, hk⟩ | hf
      · simp [hfree] at hf
      · exact ⟨_, hk, rfl⟩
      · cases hf
  simpa using hperm.length_eq

end Frames

/-! ## What keeps a page in its frame -/

/-- Whatever is not in use since the page was held is behind it in the replacer's list. -/
structure Kept (used : Finset κ) (k : κ) (f : FrameID) (s : BufferPoolManager κ π Φ) : Prop where
  inv : Inv s
  here : (k, f) ∈ s.pageTable
  behind : ∀ e ∈ s.pageTable, e.1 ∈ used ∨
    e.2 ∈ s.replacer.frames ∧ (f ∈ s.replacer.frames → [f, e.2].Sublist s.replacer.frames)

namespace Kept
variable {used : Finset κ} {k q : κ} {f g : FrameID} {s s' : BufferPoolManager κ π Φ}

theorem sublist_erase {a b c : FrameID} {l : List FrameID} (h : [a, b].Sublist l) (ha : a ≠ c) (hb : b ≠ c) :
    [a, b].Sublist (l.erase c) := by
  have := h.erase c
  rwa [List.erase_of_not_mem (by simp [ha.symm, hb.symm])] at this

/-- A frame other than these two leaves the list. -/
theorem erase {e : κ × FrameID} (h : Kept used k f s) {l : List FrameID}
    (hl : l = s.replacer.frames.erase g) (heg : e.2 ≠ g)
    (he : e.2 ∈ s.replacer.frames ∧ (f ∈ s.replacer.frames → [f, e.2].Sublist s.replacer.frames)) :
    e.2 ∈ l ∧ (f ∈ l → [f, e.2].Sublist l) := by
  subst hl
  refine ⟨(List.mem_erase_of_ne heg).2 he.1, fun hf => ?_⟩
  obtain ⟨hfg, hf⟩ := h.inv.lru.frames_nodup.mem_erase_iff.1 hf
  exact sublist_erase (he.2 hf) hfg heg

theorem pin (h : Kept used k f s) (hq : (q, g) ∈ s.pageTable) (hused : q ∈ used) : Kept used k f (s.pinResident g) := by
  obtain ⟨hinv, -, htable, -, -⟩ := pinResident_spec h.inv hq
  refine ⟨hinv, htable ▸ h.here, fun e he => ?_⟩
  rw [htable] at he
  rcases h.behind e he with hin | hbehind
  · exact .inl hin
  · by_cases heg : e.2 = g
    · left
      rw [h.inv.key_inj (show (e.1, g) ∈ _ from heg ▸ he) hq]
      exact hused
    · exact .inr (h.erase (pinResident_frames h.inv) heg hbehind)

variable [DecidableEq κ]

theorem unpin (h : Kept used k f s) (q : κ) (d : Bool) : Kept used k f (s.unpinPage q d).2 := by
  by_cases hres : ∃ g, (q, g) ∈ s.pageTable
  · obtain ⟨g, hq⟩ := hres
    obtain ⟨hinv, -, htable, -, -, -⟩ := unpinPage_spec h.inv hq d
    refine ⟨hinv, htable ▸ h.here, fun e he => ?_⟩
    rw [htable] at he
    rw [unpinPage_frames h.inv hq]
    rcases h.behind e he with hin | ⟨hmem, hsub⟩
    · exact .inl hin
    · right
      split
      · -- the frame goes to the front
        refine ⟨List.mem_cons_of_mem _ hmem, fun hf => ?_⟩
        by_cases hfg : f = g
        · subst hfg
          exact .cons_cons f (List.singleton_sublist.2 hmem)
        · exact .cons g (hsub ((List.mem_cons.1 hf).resolve_left hfg))
      · exact ⟨hmem, hsub⟩
  · rw [unpinPage_absent h.inv fun g hg => hres ⟨g, hg⟩]
    exact h

/-- A frame that is last in the list has nothing behind it. -/
theorem not_behind_last {l : List FrameID} (hnd : (l ++ [f]).Nodup) : ¬ [f, g].Sublist (l ++ [f]) := by
  intro hsub
  obtain ⟨l1, l2, heq, h1, h2⟩ := List.sublist_append_iff.1 hsub
  cases l1 with
  | nil =>
    rw [List.nil_append] at heq
    have := h2.length_le
    rw [← heq] at this
    simp at this
  | cons a l1 =>
    obtain ⟨rfl, -⟩ := List.cons.inj heq
    have hf : f ∈ l := h1.subset List.mem_cons_self
    exact (List.nodup_append.1 hnd).2.2 f hf f (List.mem_singleton_self f) rfl

/-- The frame is not vacated for one more page in use: all the others would be in use too. -/
theorem not_victim [PageFile Φ κ π] (h : Kept used k f s) (hcard : used.card ≤ s.poolSize) (hused : q ∈ used)
    (habs : ∀ g, (q, g) ∉ s.pageTable) (hg : s.getVictimPage = (some g, s')) : g ≠ f := by
  rintro rfl
  have hv := getVictimPage_spec h.inv
  rw [hg] at hv
  have hlisted : g ∈ s.replacer.frames := (h.inv.evictable g).2 ⟨⟨k, h.here⟩, hv.unpinned⟩
  obtain ⟨hfree, hlast⟩ := (getVictimPage_frames h.inv hg).2 hlisted
  have hnd := h.inv.lru.frames_nodup
  have hall : ∀ e ∈ s.pageTable, e.1 ∈ used := by
    intro e he
    refine (h.behind e he).resolve_right fun hbehind => ?_
    have hsub := hbehind.2 hlisted
    rw [hlast] at hsub hnd
    exact not_behind_last hnd hsub
  -- that is one more than there are frames
  have hkeys : (s.pageTable.map Prod.fst).toFinset.card = s.poolSize := by
    rw [List.toFinset_card_of_nodup h.inv.keys_nodup, List.length_map, h.inv.table_length hfree]
  have hnew : q ∉ (s.pageTable.map Prod.fst).toFinset := by
    rw [List.mem_toFinset, List.mem_map]
    rintro ⟨e, he, rfl⟩
    exact habs e.2 he
  have hsub : insert q (s.pageTable.map Prod.fst).toFinset ⊆ used := by
    rw [Finset.insert_subset_iff]
    refine ⟨hused, fun r hr => ?_⟩
    obtain ⟨e, he, rfl⟩ := List.mem_map.1 (List.mem_toFinset.1 hr)
    exact hall e he
  have := Finset.card_le_card hsub
  rw [Finset.card_insert_of_notMem hnew, hkeys] at this
  omega

theorem moved [PageFile Φ κ π] (h : Kept used k f s) (hcard : used.card ≤ s.poolSize) (hused : q ∈ used)
    (habs : ∀ g, (q, g) ∉ s.pageTable)
    {u : BufferPoolManager κ π Φ} (hm : s.Moved q u) : Kept used k f u := by
  obtain ⟨g, s', p, φ, hg, rfl, hkey, hpin⟩ := hm
  have hgf := h.not_victim hcard hused habs hg
  have hv := getVictimPage_spec h.inv
  rw [hg] at hv
  have habs' : ∀ g, (q, g) ∉ s'.pageTable := fun g hc => habs g ((hv.table _).1 hc).1
  have hmem := mem_placed q g p φ habs'
  refine ⟨hv.inv.place habs' p φ hkey (by omega), (hmem _).2 (.inr ((hv.table _).2 ⟨h.here, hgf.symm⟩)), fun e he => ?_⟩
  rcases (hmem e).1 he with rfl | he
  · exact .inl hused
  · obtain ⟨he, heg⟩ := (hv.table e).1 he
    rcases h.behind e he with hin | hbehind
    · exact .inl hin
    · exact .inr (h.erase (getVictimPage_frames h.inv hg).1 heg hbehind)

omit [DecidableEq κ] in
/-- The bytes and the dirty bits play no part. -/
theorem setPage (h : Kept used k f s) (hinv : Inv s') (ht : s'.pageTable = s.pageTable)
    (hr : s'.replacer = s.replacer) :
    Kept used k f s' := by
  refine ⟨hinv, ht ▸ h.here, fun e he => ?_⟩
  rw [hr]
  exact h.behind e (ht ▸ he)

end Kept

/-! ## Runs -/

variable [DecidableEq κ]

/-- The page a call needs in a frame. -/
def Call.uses : Call κ π → Option κ
  | .fetch k => some k
  | .append k => some k
  | _ => none

/-- The pages that the calls need. -/
def used (l : List (Call κ π × (BufferPoolManager κ π Φ × Clients κ π))) : Finset κ :=
  (l.filterMap fun e => e.1.uses).toFinset

/-- The pages that somebody holds. -/
def inUse (s : BufferPoolManager κ π Φ) : Finset κ :=
  ((s.pageTable.filter fun e => 0 < (s.pages e.2).pinCount).map Prod.fst).toFinset

variable [PageFile Φ κ π]

theorem Kept.step [Inhabited π] [LawfulPageFile Φ κ π] {U : Finset κ} {k : κ} {f : FrameID}
    {x y : BufferPoolManager κ π Φ × Clients κ π} {e : Call κ π}
    (h : Kept U k f x.1) (hx : Tracks x.1 x.2) (hs : Step x e y) (hcard : U.card ≤ x.1.poolSize)
    (huses : ∀ q, e.uses = some q → q ∈ U) : Kept U k f y.1 := by
  have hinv : Inv y.1 := (hx.step hs).1.inv
  cases hs with
  | fetch s c q _ =>
    have hused : q ∈ U := huses q rfl
    rcases fetchPage_moved h.inv q with ⟨g, hg, heq⟩ | ⟨habs, hm | heq⟩
    · exact heq ▸ h.pin hg hused
    · exact h.moved hcard hused habs hm
    · exact heq ▸ h
  | append s c q hfresh =>
    have habs : ∀ g, (q, g) ∉ s.pageTable := fun g hg => hfresh (hx.seen _ hg)
    rcases appendNewPage_moved h.inv q with hm | heq
    · exact h.moved hcard (huses q rfl) habs hm
    · exact heq ▸ h
  | unpin s c pre p post d _ _ => exact h.unpin p.key d
  | unpinFree s c q d _ => exact h.unpin q d
  | flush s c q =>
    have hsame : (s.flushPage q).2.pageTable = s.pageTable ∧ (s.flushPage q).2.replacer = s.replacer := by
      unfold flushPage flushPage_helper
      cases s.fetchExistentPage q with
      | none => exact ⟨rfl, rfl⟩
      | some g => exact ⟨rfl, rfl⟩
    exact h.setPage hinv hsame.1 hsame.2
  | write s c pre p post data _ => exact h.setPage hinv rfl rfl

omit [PageFile Φ κ π] in
/-- Of a page that somebody holds everything not held is behind. -/
theorem Kept.start {s : BufferPoolManager κ π Φ} (h : Inv s) {k : κ} {f : FrameID} (hk : (k, f) ∈ s.pageTable)
    (hpos : 0 < (s.pages f).pinCount) (U : Finset κ) : Kept (inUse s ∪ U) k f s := by
  refine ⟨h, hk, fun e he => ?_⟩
  by_cases hp : 0 < (s.pages e.2).pinCount
  · left
    rw [Finset.mem_union, inUse, List.mem_toFinset, List.mem_map]
    exact .inl ⟨e, List.mem_filter.2 ⟨he, by simpa using hp⟩, rfl⟩
  · refine .inr ⟨(h.evictable e.2).2 ⟨⟨e.1, he⟩, by omega⟩, fun hf => ?_⟩
    have := ((h.evictable f).1 hf).2
    omega

omit [PageFile Φ κ π] in
theorem used_snoc (l : List (Call κ π × (BufferPoolManager κ π Φ × Clients κ π))) (e : Call κ π)
    (y : BufferPoolManager κ π Φ × Clients κ π) {q : κ} :
    q ∈ used (l ++ [(e, y)]) ↔ q ∈ used l ∨ e.uses = some q := by
  simp [used]

/-- A page that somebody holds stays in its frame, and a fetch of it reads no file, as long
as the pages held then and those fetched or appended since are no more than there are
frames. -/
theorem stays_in_frame [Inhabited π] [LawfulPageFile Φ κ π] {n : Nat} {φ : Φ}
    {x y : BufferPoolManager κ π Φ × Clients κ π} (hx : Reach (Start n φ) Step x)
    {k : κ} {f : FrameID} (hk : x.1.fetchExistentPage k = some f) (hpos : 0 < (x.1.pages f).pinCount)
    {l : List (Call κ π × (BufferPoolManager κ π Φ × Clients κ π))} (hp : Path Step x l y)
    (hcard : (inUse x.1 ∪ used l).card ≤ n) :
    y.1.fetchExistentPage k = some f ∧ ∀ ψ : Φ, (fetchPage { y.1 with fileStore := ψ } k).1 = .page f := by
  have hinv := (tracks_reach hx).1.inv
  have hkept : ∀ U : Finset κ, (∀ q ∈ used l, q ∈ U) → (∀ q ∈ inUse x.1, q ∈ U) → U.card ≤ n → Kept U k f y.1 := by
    intro U hused hold hU
    clear hcard
    induction hp with
    | nil =>
      have hstart := Kept.start hinv ((hinv.find k f).1 hk) hpos U
      rwa [Finset.union_eq_right.2 hold] at hstart
    | @snoc l s' e s'' hpath hstep ih =>
      have hx' := tracks_reach (hpath.reach hx)
      have hprev := ih fun q hq => hused q ((used_snoc l e s'').2 (.inl hq))
      exact hprev.step hx'.1 hstep (hx'.2 ▸ hU) fun q hq => hused q ((used_snoc l e s'').2 (.inr hq))
  have h := hkept _ (fun q hq => Finset.mem_union_right _ hq) (fun q hq => Finset.mem_union_left _ hq) hcard
  have hfind : y.1.fetchExistentPage k = some f := (h.inv.find k f).2 h.here
  refine ⟨hfind, fun ψ => ?_⟩
  have hsame : fetchExistentPage { y.1 with fileStore := ψ } k = some f := hfind
  unfold fetchPage
  rw [hsame]

/-- In a pool of two frames the header is fetched and unpinned, and another page appended. -/
theorem stays_in_frame_two : ∃ y : BufferPoolManager PageKey Nat (MemFile PageKey Nat) × Clients PageKey Nat,
    Reach (Start 2 headerFile) Step y ∧ y.1.fetchExistentPage (.DATA, 1) = some 1 ∧
      y.1.fetchExistentPage (.DATA, 0) = some 0 := by
  have hx : Reach (Start 2 headerFile) Step _ :=
    .next (.start rfl) (.fetch _ _ (.DATA, 0) (by simp [Clients.start, headerFile, readRawPage]))
  have hunpin : Step ((fetchPage (init 2 headerFile) (.DATA, 0)).2, _) _ _ :=
    .unpin _ (Clients.fetched (.start headerFile) (.DATA, 0) (fetchPage (init 2 headerFile) (.DATA, 0)).1) [] _ [] false rfl
      (fun h => h)
  have hfresh : ¬ (Clients.fetched (.start headerFile) (.DATA, 0) (fetchPage (init 2 headerFile) (.DATA, 0)).1).seen
      ((.DATA, 1) : PageKey) := by
    change ¬ (((.DATA, 1) : PageKey) = (.DATA, 0) ∨ False)
    decide
  have hp := Path.snoc (.snoc .nil hunpin) (.append _ _ (.DATA, 1) hfresh)
  refine ⟨_, hp.reach hx, by decide, (stays_in_frame hx ?_ ?_ hp ?_).1⟩
  · decide
  · decide
  · decide

end MisakiDB.BufferPoolManager
