import MisakiDB.Buffer.BufferPoolManager
import Mathlib.Data.List.Nodup
import Mathlib.Data.List.Range
/-!
# What every pool operation keeps

`Inv s out` says the page table, the free list, the replacer and the frames
agree, with one frame possibly taken out of all of them: `out` is the frame
`getVictimPage` has just handed over. Each operation has one lemma for `Inv`
and one for `current`, the content a client sees on each page.
-/

namespace MisakiDB.BufferPoolManager

variable {κ π Φ : Type}

/-! ## The page table -/

theorem lookup_iff [DecidableEq κ] {β : Type} (l : List (κ × β)) (hn : (l.map (·.1)).Nodup) (k : κ) (v : β) :
    l.lookup k = some v ↔ (k, v) ∈ l := by
  induction l with
  | nil => simp
  | cons e l ih =>
    obtain ⟨q, w⟩ := e
    simp only [List.map_cons, List.nodup_cons] at hn
    by_cases hq : k = q
    · subst hq
      simp only [List.lookup_cons_self, Option.some.injEq, List.mem_cons, Prod.mk.injEq, true_and]
      refine ⟨fun h => .inl h.symm, ?_⟩
      rintro (h | h)
      · exact h.symm
      · exact absurd (List.mem_map.2 ⟨_, h, rfl⟩) hn.1
    · rw [List.lookup_cons, show (k == q) = false by simpa using hq, ih hn.2]
      simp [hq]

@[simp] theorem mem_setEntry [DecidableEq κ] (s : BufferPoolManager κ π Φ) (k : κ) (f : FrameID) (e : κ × FrameID) :
    e ∈ (s.setEntry k f).pageTable ↔ e = (k, f) ∨ (e.1 ≠ k ∧ e ∈ s.pageTable) := by
  simp [setEntry, and_comm]

@[simp] theorem mem_eraseEntry [DecidableEq κ] (s : BufferPoolManager κ π Φ) (k : Option κ) (e : κ × FrameID) :
    e ∈ (s.eraseEntry k).pageTable ↔ some e.1 ≠ k ∧ e ∈ s.pageTable := by
  simp [eraseEntry, and_comm]

@[simp] theorem setPage_self (s : BufferPoolManager κ π Φ) (f : FrameID) (p : Page κ π) :
    (s.setPage f p).pages f = p := by
  simp [setPage]

theorem setPage_ne (s : BufferPoolManager κ π Φ) {f g : FrameID} (p : Page κ π) (h : g ≠ f) :
    (s.setPage f p).pages g = s.pages g := by
  simp [setPage, h]

@[simp] theorem setPage_pageTable (s : BufferPoolManager κ π Φ) (f : FrameID) (p : Page κ π) :
    (s.setPage f p).pageTable = s.pageTable := rfl

/-- Every field of a page that `p` and the frame's old page share is the same
on all frames. -/
theorem setPage_same {β : Type} (s : BufferPoolManager κ π Φ) (F : Page κ π → β) (f g : FrameID) (p : Page κ π)
    (h : F p = F (s.pages f)) : F ((s.setPage f p).pages g) = F (s.pages g) := by
  by_cases hg : g = f
  · subst hg; rw [setPage_self, h]
  · rw [setPage_ne _ _ hg]

/-! ## The invariant -/

/-- The bookkeeping of the pool agrees. The frame in `out`, if any, is in none
of the structures. -/
structure Inv (s : BufferPoolManager κ π Φ) (out : Option FrameID := none) : Prop where
  lru : s.replacer.Valid
  free_nodup : s.freeList.Nodup
  keys_nodup : (s.pageTable.map (·.1)).Nodup
  frames_nodup : (s.pageTable.map (·.2)).Nodup
  free_lt : ∀ f ∈ s.freeList, f < s.poolSize
  table_lt : ∀ e ∈ s.pageTable, e.2 < s.poolSize
  placed : ∀ f < s.poolSize, f ∈ s.freeList ∨ (∃ k, (k, f) ∈ s.pageTable) ∨ out = some f
  apart : ∀ f ∈ s.freeList, ∀ k, (k, f) ∉ s.pageTable
  key_eq : ∀ e ∈ s.pageTable, (s.pages e.2).key = some e.1
  evictable : ∀ f, f ∈ s.replacer.frames ↔ (∃ k, (k, f) ∈ s.pageTable) ∧ (s.pages f).pinCount = 0
  free_clean : ∀ f ∈ s.freeList, (s.pages f).key = none ∧ (s.pages f).pinCount = 0 ∧ (s.pages f).isDirty = false
  out_clean : ∀ f, out = some f → f < s.poolSize ∧ f ∉ s.freeList ∧ (∀ k, (k, f) ∉ s.pageTable) ∧
    (s.pages f).pinCount = 0 ∧ (s.pages f).isDirty = false

theorem inv_init [Inhabited π] (n : Nat) (φ : Φ) : Inv (init n φ : BufferPoolManager κ π Φ) := by
  refine ⟨LRUReplacer.valid_empty, ?_, ?_, ?_, ?_, ?_, ?_, ?_, ?_, ?_, ?_, ?_⟩ <;>
    simp [init, List.nodup_range, LRUReplacer.empty, LRUReplacer.frames]

section Inv
variable {s : BufferPoolManager κ π Φ} {out : Option FrameID}

theorem Inv.find [DecidableEq κ] (h : Inv s out) (k : κ) (f : FrameID) :
    s.fetchExistentPage k = some f ↔ (k, f) ∈ s.pageTable :=
  lookup_iff _ h.keys_nodup k f

theorem Inv.find_none [DecidableEq κ] (h : Inv s out) (k : κ) :
    s.fetchExistentPage k = none ↔ ∀ f, (k, f) ∉ s.pageTable := by
  rw [Option.eq_none_iff_forall_ne_some]
  exact forall_congr' fun f => not_congr (h.find k f)

theorem Inv.key_inj (h : Inv s out) {k q : κ} {f : FrameID} (hk : (k, f) ∈ s.pageTable) (hq : (q, f) ∈ s.pageTable) :
    k = q :=
  congrArg Prod.fst (List.inj_on_of_nodup_map h.frames_nodup hk hq rfl)

theorem Inv.frame_inj (h : Inv s out) {k : κ} {f g : FrameID} (hf : (k, f) ∈ s.pageTable) (hg : (k, g) ∈ s.pageTable) :
    f = g :=
  congrArg Prod.snd (List.inj_on_of_nodup_map h.keys_nodup hf hg rfl)

/-- A resident frame is not free. -/
theorem Inv.not_free (h : Inv s out) {k : κ} {f : FrameID} (hk : (k, f) ∈ s.pageTable) : f ∉ s.freeList :=
  fun hf => h.apart f hf k hk

/-- A frame's data, and the dirty bit of a resident frame, play no part in the
invariant. -/
theorem Inv.setPage (h : Inv s out) (f : FrameID) (p : Page κ π) (hkey : p.key = (s.pages f).key)
    (hpin : p.pinCount = (s.pages f).pinCount)
    (hdirty : f ∈ s.freeList ∨ out = some f → p.isDirty = false) : Inv (s.setPage f p) out where
  lru := h.lru
  free_nodup := h.free_nodup
  keys_nodup := h.keys_nodup
  frames_nodup := h.frames_nodup
  free_lt := h.free_lt
  table_lt := h.table_lt
  placed := h.placed
  apart := h.apart
  key_eq e he := (setPage_same s Page.key f e.2 p hkey).trans (h.key_eq e he)
  evictable g := by rw [setPage_same s Page.pinCount f g p hpin]; exact h.evictable g
  free_clean g hg := by
    refine ⟨(setPage_same s Page.key f g p hkey).trans (h.free_clean g hg).1,
      (setPage_same s Page.pinCount f g p hpin).trans (h.free_clean g hg).2.1, ?_⟩
    by_cases hgf : g = f
    · subst hgf; rw [setPage_self]; exact hdirty (.inl hg)
    · rw [setPage_ne _ _ hgf]; exact (h.free_clean g hg).2.2
  out_clean g hg := by
    obtain ⟨h1, h2, h3, h4, h5⟩ := h.out_clean g hg
    refine ⟨h1, h2, h3, (setPage_same s Page.pinCount f g p hpin).trans h4, ?_⟩
    by_cases hgf : g = f
    · subst hgf; rw [setPage_self]; exact hdirty (.inr hg)
    · rw [setPage_ne _ _ hgf]; exact h5

/-- The file store plays no part in the invariant. -/
theorem Inv.setFile (h : Inv s out) (φ : Φ) : Inv { s with fileStore := φ } out := ⟨h.1, h.2, h.3, h.4, h.5, h.6,
  h.7, h.8, h.9, h.10, h.11, h.12⟩

/-! ## `getVictimPage` -/

/-- What the pool looks like once frame `f` has been vacated. -/
structure Vacated [PageFile Φ κ π] (s : BufferPoolManager κ π Φ) (f : FrameID) (s' : BufferPoolManager κ π Φ) :
    Prop where
  inv : Inv s' (some f)
  poolSize : s'.poolSize = s.poolSize
  table : ∀ e, e ∈ s'.pageTable ↔ e ∈ s.pageTable ∧ e.2 ≠ f
  pages : ∀ g, g ≠ f → s'.pages g = s.pages g
  unpinned : (s.pages f).pinCount = 0
  file : s'.fileStore = match (s.pages f).isDirty, (s.pages f).key with
    | true, some k => writeRawPage s.fileStore k (s.pages f).data
    | _, _ => s.fileStore

theorem vacated_free [PageFile Φ κ π] (h : Inv s) {f : FrameID} {rest : List FrameID} (hl : s.freeList = f :: rest) :
    Vacated s f { s with freeList := rest } := by
  have hf : f ∈ s.freeList := by simp [hl]
  have hsub : ∀ g ∈ rest, g ∈ s.freeList := fun g hg => by simp [hl, hg]
  have hnd := hl ▸ h.free_nodup
  have htab : ∀ e ∈ s.pageTable, e.2 ≠ f := fun e he hc => h.not_free (show (e.1, f) ∈ _ from hc ▸ he) hf
  refine ⟨⟨h.lru, (List.nodup_cons.1 hnd).2, h.keys_nodup, h.frames_nodup, fun g hg => h.free_lt g (hsub g hg),
    h.table_lt, fun g hg => ?_, fun g hg => h.apart g (hsub g hg), h.key_eq, h.evictable,
    fun g hg => h.free_clean g (hsub g hg), ?_⟩, rfl, fun e => ⟨fun he => ⟨he, htab e he⟩, And.left⟩,
    fun _ _ => rfl, (h.free_clean f hf).2.1, by simp [(h.free_clean f hf).2.2]⟩
  · rcases h.placed g hg with hg | hg | hg
    · rw [hl] at hg
      rcases List.mem_cons.1 hg with rfl | hg
      · exact .inr (.inr rfl)
      · exact .inl hg
    · exact .inr (.inl hg)
    · cases hg
  · rintro g ⟨⟩
    exact ⟨h.free_lt f hf, (List.nodup_cons.1 hnd).1, h.apart f hf, (h.free_clean f hf).2⟩

/-- Taking the frame the replacer names out of the page table and the replacer. -/
theorem inv_evict [DecidableEq κ] (h : Inv s) (hfree : s.freeList = []) {f : FrameID} {r : LRUReplacer} (hr : r.Valid)
    (hfr : s.replacer.frames = r.frames ++ [f]) {k : κ} (hk : (k, f) ∈ s.pageTable)
    (hd : (s.pages f).isDirty = false) : Inv ({ s with replacer := r }.eraseEntry (some k)) (some f) := by
  have hmem : ∀ e, e ∈ ({ s with replacer := r }.eraseEntry (some k)).pageTable ↔ e ∈ s.pageTable ∧ e.2 ≠ f := by
    intro e
    simp only [mem_eraseEntry, ne_eq, Option.some.injEq]
    refine ⟨fun ⟨hne, he⟩ => ⟨he, fun hc => hne ?_⟩, fun ⟨he, hne⟩ => ⟨fun hc => hne ?_, he⟩⟩
    · exact h.key_inj (show (e.1, f) ∈ s.pageTable from hc ▸ he) hk
    · exact h.frame_inj (show (k, e.2) ∈ s.pageTable from hc ▸ he) hk
  have hnd : (r.frames ++ [f]).Nodup := hfr ▸ h.lru.frames_nodup
  -- the victim is the last of the replacer's frames
  have hrf : ∀ g, g ∈ r.frames ↔ g ∈ s.replacer.frames ∧ g ≠ f := by
    intro g
    rw [hfr]
    have hnot : f ∉ r.frames := fun hc => (List.nodup_append.1 hnd).2.2 f hc f (by simp) rfl
    refine ⟨fun hg => ⟨by simp [hg], fun hc => hnot (hc ▸ hg)⟩, fun ⟨hg, hne⟩ => ?_⟩
    simpa [hne] using hg
  refine ⟨hr, h.free_nodup, h.keys_nodup.sublist ((List.filter_sublist).map _),
    h.frames_nodup.sublist ((List.filter_sublist).map _), h.free_lt, fun e he => h.table_lt e ((hmem e).1 he).1,
    fun g hg => ?_, fun g hg => ?_, fun e he => h.key_eq e ((hmem e).1 he).1, fun g => ?_, h.free_clean, ?_⟩
  · rcases h.placed g hg with hg | ⟨q, hq⟩ | hg
    · exact .inl hg
    · by_cases hgf : g = f
      · exact .inr (.inr (by rw [hgf]))
      · exact .inr (.inl ⟨q, (hmem _).2 ⟨hq, hgf⟩⟩)
    · cases hg
  · exact absurd hg (by simp [eraseEntry, hfree])
  · show g ∈ r.frames ↔ _
    rw [hrf, h.evictable]
    simp only [hmem]
    constructor
    · rintro ⟨⟨⟨q, hq⟩, hp⟩, hne⟩; exact ⟨⟨q, hq, hne⟩, hp⟩
    · rintro ⟨⟨q, hq, hne⟩, hp⟩; exact ⟨⟨⟨q, hq⟩, hp⟩, hne⟩
  · rintro g ⟨⟩
    have hev := (h.evictable f).1 (by rw [hfr]; simp)
    exact ⟨h.table_lt _ hk, by simp [eraseEntry, hfree], fun q hq => ((hmem _).1 hq).2 rfl, hev.2, hd⟩

theorem setPage_clean {f : FrameID} (hd : (s.pages f).isDirty = false) :
    s.setPage f { s.pages f with isDirty := false } = s := by
  have hp : { s.pages f with isDirty := false } = s.pages f := by rw [← hd]
  simp only [BufferPoolManager.setPage, hp, Function.update_eq_self]

theorem evictPage_spec [DecidableEq κ] [PageFile Φ κ π] (h : Inv s) (hl : s.freeList = []) :
    match s.evictPage with
    | (some f, s') => Vacated s f s'
    | (none, s') => s' = s ∧ ∀ f < s.poolSize, 0 < (s.pages f).pinCount := by
  unfold evictPage
  have hv := LRUReplacer.victim_spec h.lru
  cases hvic : s.replacer.victim with
  | none =>
    rw [hvic] at hv
    refine ⟨rfl, fun f hf => ?_⟩
    rcases h.placed f hf with hf | hf | hf
    · simp [hl] at hf
    · by_contra hc
      have : f ∈ s.replacer.frames := (h.evictable f).2 ⟨hf, by omega⟩
      simp [hv] at this
    · cases hf
  | some v =>
    obtain ⟨f, r⟩ := v
    rw [hvic] at hv
    obtain ⟨hr, hfr⟩ := hv
    obtain ⟨⟨k, hk⟩, hpin⟩ := (h.evictable f).1 (by rw [hfr]; simp)
    have hkey : (s.pages f).key = some k := h.key_eq _ hk
    -- the frame as it is left behind is clean either way
    have hclean : Inv (s.setPage f { s.pages f with isDirty := false }) :=
      h.setPage f _ rfl rfl (fun _ => rfl)
    have hinv := inv_evict hclean hl hr hfr hk (by simp)
    have hmem : ∀ e : κ × FrameID, some e.1 ≠ some k ∧ e ∈ s.pageTable ↔ e ∈ s.pageTable ∧ e.2 ≠ f := by
      intro e
      constructor
      · rintro ⟨hne, he⟩
        exact ⟨he, fun hc => hne (by rw [h.key_inj (show (e.1, f) ∈ _ from hc ▸ he) hk])⟩
      · rintro ⟨he, hne⟩
        refine ⟨fun hc => hne ?_, he⟩
        simp only [Option.some.injEq] at hc
        exact h.frame_inj (show (k, e.2) ∈ _ from hc ▸ he) hk
    simp only [hkey]
    cases hd : (s.pages f).isDirty with
    | true =>
      rw [if_pos (by simpa [eraseEntry] using hd)]
      refine ⟨?_, rfl, fun e => ?_, fun g hg => setPage_ne _ _ hg, hpin, ?_⟩
      · have := hinv.setFile (writeRawPage s.fileStore k (s.pages f).data)
        simpa [writeBack, eraseEntry, BufferPoolManager.setPage, hkey] using this
      · simpa [writeBack, BufferPoolManager.setPage] using hmem e
      · simp [writeBack, eraseEntry, hkey, hd]
    | false =>
      rw [if_neg (by simpa [eraseEntry] using hd)]
      rw [setPage_clean hd] at hinv
      exact ⟨hinv, rfl, fun e => by simpa using hmem e, fun _ _ => rfl, hpin, by simp [eraseEntry, hd]⟩

/-- `getVictimPage` vacates a frame, or every frame is pinned and nothing
changes. -/
theorem getVictimPage_spec [DecidableEq κ] [PageFile Φ κ π] (h : Inv s) :
    match s.getVictimPage with
    | (some f, s') => Vacated s f s'
    | (none, s') => s' = s ∧ ∀ f < s.poolSize, 0 < (s.pages f).pinCount := by
  unfold getVictimPage
  cases hl : s.freeList with
  | cons f rest => exact vacated_free h hl
  | nil => exact evictPage_spec h hl

/-! ## Pins -/

/-- A resident frame may change its pins as long as the replacer follows. -/
theorem Inv.repin (h : Inv s out) {k : κ} {f : FrameID} (hk : (k, f) ∈ s.pageTable) (p : Page κ π)
    (hkey : p.key = (s.pages f).key) (r : LRUReplacer) (hr : r.Valid)
    (hfr : ∀ g, g ∈ r.frames ↔ (g ≠ f ∧ g ∈ s.replacer.frames) ∨ (g = f ∧ p.pinCount = 0)) :
    Inv { s.setPage f p with replacer := r } out where
  lru := hr
  free_nodup := h.free_nodup
  keys_nodup := h.keys_nodup
  frames_nodup := h.frames_nodup
  free_lt := h.free_lt
  table_lt := h.table_lt
  placed := h.placed
  apart := h.apart
  key_eq e he := (setPage_same s Page.key f e.2 p hkey).trans (h.key_eq e he)
  evictable g := by
    rw [hfr g]
    by_cases hgf : g = f
    · subst hgf
      simp only [ne_eq, not_true_eq_false, false_and, true_and, false_or, setPage_self]
      exact ⟨fun hp => ⟨⟨k, hk⟩, hp⟩, And.right⟩
    · simp only [setPage_ne _ _ hgf]
      have := h.evictable g
      simpa [hgf] using this
  free_clean g hg := by
    have hgf : g ≠ f := fun hc => h.not_free hk (show f ∈ s.freeList from hc ▸ hg)
    have := h.free_clean g hg
    rwa [← setPage_ne s p hgf] at this
  out_clean g hg := by
    obtain ⟨h1, h2, h3, h4⟩ := h.out_clean g hg
    have hgf : g ≠ f := fun hc => h3 k (show (k, g) ∈ s.pageTable from hc ▸ hk)
    rw [← setPage_ne s p hgf] at h4
    exact ⟨h1, h2, h3, h4⟩

/-- `fetchPage` on a resident page adds a pin and changes nothing else a
client can see. -/
theorem pinResident_spec (h : Inv s) {k : κ} {f : FrameID} (hk : (k, f) ∈ s.pageTable) :
    Inv (s.pinResident f) ∧ (s.pinResident f).poolSize = s.poolSize ∧
      (s.pinResident f).pageTable = s.pageTable ∧ (s.pinResident f).fileStore = s.fileStore ∧
      (s.pinResident f).pages = Function.update s.pages f
        { s.pages f with pinCount := (s.pages f).pinCount + 1 } := by
  unfold pinResident
  by_cases hp : (s.pages f).pinCount = 0
  · simp only [hp, if_pos]
    refine ⟨?_, rfl, rfl, rfl, by simp [BufferPoolManager.setPage]⟩
    refine h.repin hk { s.pages f with pinCount := 0 + 1 } rfl _ (LRUReplacer.pin_valid h.lru f) (fun g => ?_)
    rw [LRUReplacer.pin_frames h.lru, h.lru.frames_nodup.mem_erase_iff]
    simp
  · simp only [hp, if_false]
    refine ⟨?_, rfl, rfl, rfl, rfl⟩
    refine h.repin hk { s.pages f with pinCount := (s.pages f).pinCount + 1 } rfl _ h.lru (fun g => ?_)
    have hnot : f ∉ s.replacer.frames := fun hc => hp ((h.evictable f).1 hc).2
    by_cases hg : g = f
    · subst hg; simp [hnot]
    · simp [hg]

variable [DecidableEq κ]

/-- The frame's page after `unpinPage`: the dirty bit is raised and a pin, if
there is one, is dropped. -/
def unpinned (p : Page κ π) (isDirty : Bool) : Page κ π :=
  { p with isDirty := p.isDirty || isDirty, pinCount := p.pinCount - 1 }

theorem unpinPage_spec (h : Inv s) {k : κ} {f : FrameID} (hk : (k, f) ∈ s.pageTable) (d : Bool) :
    Inv (s.unpinPage k d).2 ∧ (s.unpinPage k d).2.poolSize = s.poolSize ∧
      (s.unpinPage k d).2.pageTable = s.pageTable ∧ (s.unpinPage k d).2.fileStore = s.fileStore ∧
      (s.unpinPage k d).2.pages = Function.update s.pages f (unpinned (s.pages f) d) ∧
      ((s.unpinPage k d).1 = true ↔ 0 < (s.pages f).pinCount) := by
  unfold unpinPage
  rw [(h.find k f).2 hk]
  have hnf := h.not_free hk
  by_cases hp : (s.pages f).pinCount = 0
  · simp only [hp, if_pos]
    refine ⟨h.setPage f _ rfl hp.symm (fun hc => ?_), rfl, rfl, rfl, by simp [BufferPoolManager.setPage, unpinned, hp],
      by simp⟩
    rcases hc with hc | hc
    · exact absurd hc hnf
    · cases hc
  · have hnot : f ∉ s.replacer.frames := fun hc => hp ((h.evictable f).1 hc).2
    by_cases hp1 : (s.pages f).pinCount - 1 = 0
    · simp only [hp, if_false, hp1, if_pos]
      refine ⟨?_, rfl, rfl, rfl, by simp [BufferPoolManager.setPage, unpinned, hp1], by simp; omega⟩
      refine h.repin hk (p := { s.pages f with isDirty := (s.pages f).isDirty || d, pinCount := 0 }) rfl _
        (LRUReplacer.unpin_valid h.lru f) (fun g => ?_)
      show g ∈ (s.replacer.unpin f).frames ↔ _
      rw [LRUReplacer.unpin_frames h.lru, if_neg hnot]
      by_cases hg : g = f <;> simp [hg]
    · simp only [hp, if_false, hp1]
      refine ⟨?_, rfl, rfl, rfl, by simp [BufferPoolManager.setPage, unpinned], by simp; omega⟩
      refine h.repin hk (p := unpinned (s.pages f) d) rfl _ h.lru (fun g => ?_)
      by_cases hg : g = f
      · subst hg; simp [hnot, unpinned, hp1]
      · simp [hg]

theorem unpinPage_absent (h : Inv s) {k : κ} (hk : ∀ f, (k, f) ∉ s.pageTable) (d : Bool) :
    s.unpinPage k d = (true, s) := by
  unfold unpinPage
  rw [(h.find_none k).2 hk]

/-! ## A page moves into a vacated frame -/

/-- Frame `f` holds page `k` as `p`, and the file is `φ`. -/
def placed (s : BufferPoolManager κ π Φ) (k : κ) (f : FrameID) (p : Page κ π) (φ : Φ) : BufferPoolManager κ π Φ :=
  { (s.setEntry k f).setPage f p with fileStore := φ }

theorem mem_placed (k : κ) (f : FrameID) (p : Page κ π) (φ : Φ) (hk : ∀ g, (k, g) ∉ s.pageTable) (e : κ × FrameID) :
    e ∈ (s.placed k f p φ).pageTable ↔ e = (k, f) ∨ e ∈ s.pageTable := by
  refine (mem_setEntry s k f e).trans (or_congr_right ⟨And.right, fun he => ⟨fun hc => hk e.2 ?_, he⟩⟩)
  exact (show (k, e.2) ∈ s.pageTable from hc ▸ he)

@[simp] theorem placed_self (k : κ) (f : FrameID) (p : Page κ π) (φ : Φ) : (s.placed k f p φ).pages f = p := by
  simp [placed]

theorem placed_ne (k : κ) {f g : FrameID} (p : Page κ π) (φ : Φ) (h : g ≠ f) :
    (s.placed k f p φ).pages g = s.pages g :=
  setPage_ne (s.setEntry k f) p h

/-- The frame that was out comes back holding page `k`, pinned. -/
theorem Inv.place {f : FrameID} (h : Inv s (some f)) {k : κ} (hk : ∀ g, (k, g) ∉ s.pageTable) (p : Page κ π)
    (φ : Φ) (hkey : p.key = some k) (hpin : 0 < p.pinCount) : Inv (s.placed k f p φ) := by
  obtain ⟨hlt, hfree, htab, -, -⟩ := h.out_clean f rfl
  have hfilter : s.pageTable.filter (fun e => e.1 ≠ k) = s.pageTable := by
    rw [List.filter_eq_self]
    intro e he
    have : e.1 ≠ k := fun hc => hk e.2 (show (k, e.2) ∈ s.pageTable from hc ▸ he)
    simpa using this
  have htable : (s.placed k f p φ).pageTable = (k, f) :: s.pageTable := by
    simp only [BufferPoolManager.placed, BufferPoolManager.setPage, setEntry, hfilter]
  have hne : ∀ e ∈ s.pageTable, e.2 ≠ f := fun e he hc => htab e.1 (show (e.1, f) ∈ s.pageTable from hc ▸ he)
  have hne' : ∀ g ∈ s.freeList, g ≠ f := fun g hg hc => hfree (hc ▸ hg)
  -- `f` is now resident and no longer out; every other frame is where it was
  refine ⟨h.lru, h.free_nodup, ?_, ?_, h.free_lt, ?_, fun g hg => ?_, fun g hg q => ?_, fun e he => ?_, fun g => ?_,
    fun g hg => ?_, by simp⟩
  · rw [htable, List.map_cons]
    refine List.nodup_cons.2 ⟨fun hc => ?_, h.keys_nodup⟩
    obtain ⟨⟨q, g⟩, he, rfl⟩ := List.mem_map.1 hc
    exact hk g he
  · rw [htable, List.map_cons]
    refine List.nodup_cons.2 ⟨fun hc => ?_, h.frames_nodup⟩
    obtain ⟨e, he, hef⟩ := List.mem_map.1 hc
    exact hne e he hef
  · rw [htable]
    intro e he
    rcases List.mem_cons.1 he with rfl | he
    · exact hlt
    · exact h.table_lt e he
  · rw [htable]
    rcases h.placed g hg with hg | ⟨q, hq⟩ | hg
    · exact .inl hg
    · exact .inr (.inl ⟨q, by simp [hq]⟩)
    · cases hg; exact .inr (.inl ⟨k, by simp⟩)
  · rw [htable, List.mem_cons, not_or]
    exact ⟨fun hc => hne' g hg (congrArg Prod.snd hc), h.apart g hg q⟩
  · rw [htable] at he
    rcases List.mem_cons.1 he with rfl | he
    · rw [placed_self, hkey]
    · rw [placed_ne _ _ _ (hne e he)]; exact h.key_eq e he
  · rw [htable]
    by_cases hgf : g = f
    · subst hgf
      rw [placed_self]
      refine ⟨fun hc => absurd ((h.evictable g).1 hc).1 (by simpa using htab), fun ⟨_, hp⟩ => by omega⟩
    · rw [placed_ne _ _ _ hgf]
      refine (h.evictable g).trans (and_congr_left fun _ => exists_congr fun q => ?_)
      simp [hgf]
  · rw [placed_ne _ _ _ (hne' g hg)]; exact h.free_clean g hg

variable [PageFile Φ κ π]

/-- The state after `loadPage`, whether or not the read throws. -/
theorem loadPage_state (k : κ) (f : FrameID) : (s.loadPage k f).2 = s.placed k f
    { s.pages f with key := some k, pinCount := (s.pages f).pinCount + 1,
                     data := (readRawPage s.fileStore k).getD (s.pages f).data } s.fileStore := by
  unfold loadPage
  simp only [setEntry]
  cases readRawPage s.fileStore k <;> rfl

theorem loadPage_result (k : κ) (f : FrameID) :
    (s.loadPage k f).1 = if (readRawPage s.fileStore k).isSome then .page f else .threw := by
  unfold loadPage
  simp only [setEntry]
  cases readRawPage s.fileStore k <;> rfl

/-- The state after `newPage`. -/
theorem newPage_state [Inhabited π] (k : κ) (f : FrameID) : s.newPage k f = s.placed k f
    { key := some k, pinCount := (s.pages f).pinCount + 1, data := default, isDirty := false }
    (writeRawPage s.fileStore k default) := by
  unfold newPage flushPage_helper fetchExistentPage
  simp only [BufferPoolManager.setPage, setEntry, List.lookup_cons_self, Function.update_self, Function.update_idem,
    placed]

omit [DecidableEq κ] in
/-- Vacating a frame leaves the file as it was on every page the frame did not
hold. -/
theorem Vacated.file_ne [LawfulPageFile Φ κ π] {s' : BufferPoolManager κ π Φ} {f : FrameID} (h : Inv s)
    (hv : Vacated s f s') {k : κ} (hk : (k, f) ∉ s.pageTable) :
    readRawPage s'.fileStore k = readRawPage s.fileStore k := by
  rw [hv.file]
  split
  · rename_i q hd hq
    rw [LawfulPageFile.read_write_ne]
    rintro rfl
    -- a frame that names `k` without holding it is free, so not dirty
    by_cases hres : ∃ q, (q, f) ∈ s.pageTable
    · obtain ⟨q, hres⟩ := hres
      have := h.key_eq _ hres
      simp only [hq, Option.some.injEq] at this
      exact hk (this ▸ hres)
    · have hlt := (hv.inv.out_clean f rfl).1
      rw [hv.poolSize] at hlt
      rcases h.placed f hlt with hf | hf | hf
      · simp [(h.free_clean f hf).1] at hq
      · exact hres hf
      · cases hf
  · rfl

/-- What `fetchPage` does, in three cases: the page is resident, or it is
loaded into a vacated frame, or every frame is pinned. -/
theorem fetchPage_cases (h : Inv s) (k : κ) :
    (∃ f, (k, f) ∈ s.pageTable ∧ s.fetchPage k = (.page f, s.pinResident f)) ∨
    ((∀ f, (k, f) ∉ s.pageTable) ∧ ∃ f s', Vacated s f s' ∧ s.fetchPage k = s'.loadPage k f) ∨
    ((∀ f, (k, f) ∉ s.pageTable) ∧ (∀ f < s.poolSize, 0 < (s.pages f).pinCount) ∧ s.fetchPage k = (.nullptr, s)) := by
  unfold fetchPage
  cases hk : s.fetchExistentPage k with
  | some f => exact .inl ⟨f, (h.find k f).1 hk, rfl⟩
  | none =>
    have hk := (h.find_none k).1 hk
    have hv := getVictimPage_spec h
    rcases hg : s.getVictimPage with ⟨_ | f, s'⟩
    · rw [hg] at hv
      obtain ⟨rfl, hv⟩ := hv
      exact .inr (.inr ⟨hk, hv, rfl⟩)
    · rw [hg] at hv
      exact .inr (.inl ⟨hk, f, s', hv, rfl⟩)

/-- What `appendNewPage` does, in two cases. -/
theorem appendNewPage_cases [Inhabited π] (h : Inv s) (k : κ) :
    (∃ f s', Vacated s f s' ∧ s.appendNewPage k = (some f, s'.newPage k f)) ∨
    ((∀ f < s.poolSize, 0 < (s.pages f).pinCount) ∧ s.appendNewPage k = (none, s)) := by
  unfold appendNewPage
  have hv := getVictimPage_spec h
  rcases hg : s.getVictimPage with ⟨_ | f, s'⟩
  · rw [hg] at hv
    obtain ⟨rfl, hv⟩ := hv
    exact .inr ⟨hv, rfl⟩
  · rw [hg] at hv
    exact .inl ⟨f, s', hv, rfl⟩

/-! ## A fetch that throws -/

/-- What a fetch that throws would have to leave behind. -/
structure FailsCleanly (s s' : BufferPoolManager κ π Φ) (k : κ) : Prop where
  absent : s'.fetchExistentPage k = none
  pins : ∀ f, (s'.pages f).pinCount ≤ (s.pages f).pinCount
  accounted : Inv s'
  /-- Whatever the file holds by then, a later fetch reads it. -/
  rereads : ∀ (φ : Φ) f, (fetchPage { s' with fileStore := φ } k).1 = .page f →
    readRawPage φ k = some ((fetchPage { s' with fileStore := φ } k).2.pages f).data

theorem getVictimPage_pinCount {f g : FrameID} {s' : BufferPoolManager κ π Φ} (h : s.getVictimPage = (some f, s')) :
    (s'.pages g).pinCount = (s.pages g).pinCount := by
  unfold getVictimPage at h
  split at h
  · obtain ⟨-, rfl⟩ := Prod.mk.inj h
    rfl
  · unfold evictPage at h
    split at h
    · cases (Prod.mk.inj h).1
    · dsimp only at h
      split at h
      · obtain ⟨-, rfl⟩ := Prod.mk.inj h
        exact setPage_same _ Page.pinCount _ _ _ rfl
      · obtain ⟨-, rfl⟩ := Prod.mk.inj h
        rfl

/-- The page stays, pinned once more, with the bytes that were in its frame, and the
next fetch returns them without reading the file. -/
theorem fetchPage_threw {s' : BufferPoolManager κ π Φ} {k : κ} (h : s.fetchPage k = (.threw, s')) :
    ∃ f, s'.fetchExistentPage k = some f ∧ (s'.pages f).pinCount = (s.pages f).pinCount + 1 ∧
      ∀ φ : Φ, (fetchPage { s' with fileStore := φ } k).1 = .page f ∧
        ((fetchPage { s' with fileStore := φ } k).2.pages f).data = (s'.pages f).data := by
  unfold fetchPage at h
  split at h
  · cases (Prod.mk.inj h).1
  split at h
  · rename_i f u hv
    have hstate : s' = (u.loadPage k f).2 := (congrArg Prod.snd h).symm
    have hpage : s'.fetchExistentPage k = some f := by
      rw [hstate, loadPage_state]
      simp [fetchExistentPage, placed, setEntry]
    refine ⟨f, hpage, ?_, fun φ => ?_⟩
    · rw [hstate, loadPage_state, ← getVictimPage_pinCount hv]
      simp [placed]
    · have hres : fetchExistentPage { s' with fileStore := φ } k = some f := hpage
      unfold fetchPage
      rw [hres]
      refine ⟨rfl, ?_⟩
      simp only [pinResident, setPage_self]
  · cases (Prod.mk.inj h).1

/-- No fetch that throws leaves the pool as it should. -/
theorem threw_not_clean {s' : BufferPoolManager κ π Φ} {k : κ} (h : s.fetchPage k = (.threw, s')) :
    ¬ FailsCleanly s s' k := by
  obtain ⟨f, hf, -⟩ := fetchPage_threw h
  intro hc
  rw [hc.absent] at hf
  cases hf

end Inv

/-- A fetch past the end of the file, in a new pool. -/
theorem threw_not_clean_new : ¬ FailsCleanly (init 1 (⟨fun _ => none⟩ : MemFile Nat Nat))
    (fetchPage (init 1 (⟨fun _ => none⟩ : MemFile Nat Nat)) 5).2 5 := threw_not_clean rfl

/-- Already in a new pool the next fetch of the page finds zeroes instead of reading
the file. -/
theorem leftover_returned :
    ¬ ∀ (n : Nat) (φ : MemFile Nat Nat) (k : Nat) (s' : BufferPoolManager Nat Nat (MemFile Nat Nat)),
    (init n φ).fetchPage k = (.threw, s') → FailsCleanly (init n φ) s' k := by
  intro h
  have hc := h 1 ⟨fun _ => none⟩ 5 _ rfl
  exact absurd (hc.rereads ⟨fun _ => none⟩ 0 rfl) (by decide)

end MisakiDB.BufferPoolManager
