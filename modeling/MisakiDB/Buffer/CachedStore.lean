import MisakiDB.Buffer.PageStore
/-!
# A pool that evicts

A `Cache` has some pages in frames and the rest in files only. At a fetch or an
append it evicts whichever unpinned pages it chooses, and writes one to its file only
if the dirty bit is set.

`Tracked` is the store that never evicts with what the programs promise: a page is
`unsaved` when it has changes that no dirty bit stands for, and `here` when it cannot
have been evicted. A program is `ok` if it touches only pages that are here and lets
no unsaved page go. `Matches.step` is the result: such a program runs on the cache as
on the store. Pages may be `spared`: they need not be saved, and runs in which the
cache evicts one with its changes are left out (`stops`).
-/

namespace MisakiDB

/-- A page in the pool. `changed` is the truth that the dirty bit is about. -/
structure Frame (π : Type) where
  content : π
  isDirty : Bool
  changed : Bool
  pinCount : Nat

structure Cache (κ π ρ : Type) where
  frame : κ → Option (Frame π)
  file : κ → Option π
  latch : κ → Latch
  member : ρ
  time : Nat

namespace Cache

variable {κ π ρ : Type} [DecidableEq κ]

/-- What the programs see, if nothing is lost. -/
def store (c : Cache κ π ρ) : PageStore κ π ρ where
  page k := ((c.frame k).map Frame.content).or (c.file k)
  pins k := ((c.frame k).map Frame.pinCount).getD 0
  latch := c.latch
  member := c.member

def setFrame (c : Cache κ π ρ) (k : κ) (f : Frame π) : Cache κ π ρ :=
  { c with frame := Function.update c.frame k (some f) }

def setFile (c : Cache κ π ρ) (k : κ) (p : π) : Cache κ π ρ :=
  { c with file := Function.update c.file k (some p) }

def setLatch (c : Cache κ π ρ) (k : κ) (l : Latch) : Cache κ π ρ :=
  { c with latch := Function.update c.latch k l }

/-- Free the frame of a page. -/
def free (c : Cache κ π ρ) (k : κ) (f : Frame π) : Cache κ π ρ :=
  { c with
    frame := Function.update c.frame k none
    file := if f.isDirty then Function.update c.file k (some f.content) else c.file }

/-- Free the frame of a page, if it is unpinned. -/
def evict (c : Cache κ π ρ) (k : κ) : Cache κ π ρ :=
  match c.frame k with
  | none => c
  | some f => if f.pinCount = 0 then c.free k f else c

/-- An eviction of the page would lose changes. -/
def loses (c : Cache κ π ρ) (k : κ) : Bool :=
  match c.frame k with
  | none => false
  | some f => f.pinCount = 0 && f.changed && !f.isDirty

def evictAll (c : Cache κ π ρ) (ks : List κ) : Cache κ π ρ := { ks.foldl evict c with time := c.time + 1 }

variable [Inhabited π]

/-- What an operation does. `choose` says which pages the pool wants to evict at its
`n`-th fetch or append. -/
def exec (choose : Nat → List κ) : Prog.Handler (PageOp κ π ρ) PageOp.Res (Cache κ π ρ)
  | .fetchPage k, c =>
    let c := c.evictAll (choose c.time)
    match c.frame k with
    | some f => some ((), c.setFrame k { f with pinCount := f.pinCount + 1 })
    | none => (c.file k).map fun p => ((), c.setFrame k ⟨p, false, false, 1⟩)
  | .appendNewPage k, c =>
    let c := c.evictAll (choose c.time)
    match c.frame k, c.file k with
    | none, none => some ((), (c.setFile k default).setFrame k ⟨default, false, false, 1⟩)
    | _, _ => none
  | .unpinPage k d, c =>
    match c.frame k with
    | some f =>
      if 0 < f.pinCount then some ((), c.setFrame k { f with isDirty := f.isDirty || d, pinCount := f.pinCount - 1 })
        else none
    | none => none
  | .getData k, c => (c.frame k).map fun f => (f.content, c)
  | .setData k p, c => (c.frame k).map fun f => ((), c.setFrame k { f with content := p, changed := true })
  | .getPinCount k, c => (c.frame k).map fun f => (f.pinCount, c)
  | .rLatch k, c =>
    match c.latch k with
    | .reading n => some ((), c.setLatch k (.reading (n + 1)))
    | .writing => none
  | .rUnlatch k, c =>
    match c.latch k with
    | .reading (n + 1) => some ((), c.setLatch k (.reading n))
    | _ => none
  | .wLatch k, c => if c.latch k = .reading 0 then some ((), c.setLatch k .writing) else none
  | .wUnlatch k, c => if c.latch k = .writing then some ((), c.setLatch k (.reading 0)) else none
  | .getMember, c => some (c.member, c)
  | .setMember r, c => some ((), { c with member := r })

/-- The call would evict a spared page with its changes. -/
def stopped (spared : κ → Bool) (choose : Nat → List κ) (c : Cache κ π ρ) : PageOp κ π ρ → Bool
  | .fetchPage _ | .appendNewPage _ => (choose c.time).any fun x => spared x && c.loses x
  | _ => false

/-- The run comes to such a call. -/
def stops {α : Type} (spared : κ → Bool) (choose : Nat → List κ) : PageProg κ π ρ α → Cache κ π ρ → Bool
  | .ret _, _ => false
  | .call o k, c => c.stopped spared choose o ||
    match exec choose o c with
    | some (r, c') => stops spared choose (k r) c'
    | none => false
  | .fail, _ => false

/-- A new pool on the files. -/
def ofFiles (s : PageStore κ π ρ) : Cache κ π ρ where
  frame _ := none
  file := s.page
  latch := s.latch
  member := s.member
  time := 0

/-- The pool is destroyed, which writes every page it has to its file, and a new one
is made on the files. -/
def reopen (c : Cache κ π ρ) : Cache κ π ρ := ofFiles c.store.reopen

end Cache

/-! ## What programs promise -/

structure Tracked (κ π ρ : Type) where
  store : PageStore κ π ρ
  unsaved : κ → Bool
  here : κ → Bool
  ok : Bool

namespace Tracked

variable {κ π ρ : Type} [DecidableEq κ]

def ofStore (s : PageStore κ π ρ) : Tracked κ π ρ := ⟨s, fun _ => false, fun _ => false, true⟩

/-- After a fetch or an append, the other pages may be gone. -/
def fetched (t : Tracked κ π ρ) (k : κ) : Tracked κ π ρ :=
  { t with
    store := t.store.setPins k (t.store.pins k + 1)
    here := fun x => x = k || 0 < t.store.pins x }

/-- A new page is in its file. -/
def appended [Inhabited π] (t : Tracked κ π ρ) (k : κ) : Tracked κ π ρ :=
  { t with
    store := (t.store.setPage k default).setPins k (t.store.pins k + 1)
    unsaved := Function.update t.unsaved k false
    here := fun x => x = k || 0 < t.store.pins x }

/-- The last pin of a page is its last chance to be saved. -/
def unpinned (spared : κ → Bool) (t : Tracked κ π ρ) (k : κ) (d : Bool) : Tracked κ π ρ :=
  { t with
    store := t.store.setPins k (t.store.pins k - 1)
    unsaved := if d then Function.update t.unsaved k false else t.unsaved
    ok := t.ok && (spared k || 1 < t.store.pins k || d || !t.unsaved k) }

def touched (t : Tracked κ π ρ) (k : κ) : Tracked κ π ρ := { t with ok := t.ok && t.here k }

def written (spared : κ → Bool) (t : Tracked κ π ρ) (k : κ) (p : π) : Tracked κ π ρ :=
  { t with
    store := t.store.setPage k p
    unsaved := Function.update t.unsaved k true
    ok := t.ok && t.here k && (spared k || 0 < t.store.pins k) }

variable [Inhabited π]

def exec (spared : κ → Bool) : Prog.Handler (PageOp κ π ρ) PageOp.Res (Tracked κ π ρ)
  | .fetchPage k, t => (t.store.page k).map fun _ => ((), t.fetched k)
  | .appendNewPage k, t => if t.store.page k = none then some ((), t.appended k) else none
  | .unpinPage k d, t => if 0 < t.store.pins k then some ((), t.unpinned spared k d) else none
  | .getData k, t => (t.store.page k).map fun p => (p, t.touched k)
  | .setData k p, t => (t.store.page k).map fun _ => ((), t.written spared k p)
  | .getPinCount k, t => (t.store.page k).map fun _ => (t.store.pins k, t.touched k)
  | o, t => (PageStore.exec o t.store).map fun r => (r.1, { t with store := r.2 })

variable {spared : κ → Bool} {t : Tracked κ π ρ}

/-- The store of a tracked run is that of the run without tracking. -/
theorem exec_store (spared : κ → Bool) (o : PageOp κ π ρ) (t : Tracked κ π ρ) :
    (exec spared o t).map (fun r => (r.1, r.2.store)) = PageStore.exec o t.store := by
  cases o with
  | fetchPage k => simp only [exec, PageStore.exec]; cases t.store.page k <;> rfl
  | appendNewPage k => simp only [exec, PageStore.exec]; split <;> rfl
  | unpinPage k d => simp only [exec, PageStore.exec]; split <;> rfl
  | getData k => simp only [exec, PageStore.exec]; cases t.store.page k <;> rfl
  | setData k p => simp only [exec, PageStore.exec]; cases t.store.page k <;> rfl
  | getPinCount k => simp only [exec, PageStore.exec]; cases t.store.page k <;> rfl
  | _ =>
    simp only [exec, Option.map_map]
    exact congrFun Option.map_id _

theorem run_store (spared : κ → Bool) {α : Type} (p : PageProg κ π ρ α) (t : Tracked κ π ρ) {a : α}
    {s' : PageStore κ π ρ}
    (h : Prog.run PageStore.exec p t.store = some (a, s')) :
    ∃ t', Prog.run (exec spared) p t = some (a, t') ∧ t'.store = s' := by
  induction p generalizing t with
  | ret b =>
    simp only [Prog.run, Option.some.injEq, Prod.mk.injEq] at h ⊢
    exact ⟨t, ⟨h.1, rfl⟩, h.2⟩
  | call o k ih =>
    simp only [Prog.run] at h ⊢
    rcases ho : exec spared o t with _ | ⟨r, u⟩
    · rw [← exec_store spared o t, ho] at h
      simp at h
    · rw [← exec_store spared o t, ho] at h
      exact ih r u h
  | fail => simp [Prog.run] at h

/-- A promise broken stays broken. -/
theorem ok_of_exec {o : PageOp κ π ρ} {r : o.Res × Tracked κ π ρ} (h : exec spared o t = some r) (hok : r.2.ok = true) :
    t.ok = true := by
  cases o with
  | fetchPage k =>
    obtain ⟨p, -, rfl⟩ := Option.map_eq_some_iff.1 h
    exact hok
  | appendNewPage k =>
    simp only [exec] at h
    split at h
    · obtain rfl := Option.some.inj h
      exact hok
    · cases h
  | unpinPage k d =>
    simp only [exec] at h
    split at h
    · obtain rfl := Option.some.inj h
      exact (Bool.and_eq_true_iff.1 hok).1
    · cases h
  | getData k =>
    obtain ⟨p, -, rfl⟩ := Option.map_eq_some_iff.1 h
    exact (Bool.and_eq_true_iff.1 hok).1
  | setData k p =>
    obtain ⟨p, -, rfl⟩ := Option.map_eq_some_iff.1 h
    exact (Bool.and_eq_true_iff.1 (Bool.and_eq_true_iff.1 hok).1).1
  | getPinCount k =>
    obtain ⟨p, -, rfl⟩ := Option.map_eq_some_iff.1 h
    exact (Bool.and_eq_true_iff.1 hok).1
  | _ =>
    simp only [exec] at h
    rw [Option.map_eq_some_iff] at h
    obtain ⟨x, -, rfl⟩ := h
    exact hok

theorem ok_of_run {α : Type} {p : PageProg κ π ρ α} {a : α} {t t' : Tracked κ π ρ}
    (h : Prog.run (exec spared) p t = some (a, t')) (hok : t'.ok = true) : t.ok = true := by
  induction p generalizing t with
  | ret b =>
    simp only [Prog.run, Option.some.injEq, Prod.mk.injEq] at h
    rw [h.2]
    exact hok
  | call o k ih =>
    simp only [Prog.run] at h
    rcases ho : exec spared o t with _ | ⟨r, u⟩
    · simp [ho] at h
    · rw [ho] at h
      exact ok_of_exec ho (ih r h)
  | fail => simp [Prog.run] at h

end Tracked

/-! ## The cache runs as the store -/

section
variable {κ π ρ : Type} {spared : κ → Bool} {t t' : Tracked κ π ρ} {c : Cache κ π ρ}

/-- What the frames and files are to the store. A page that is in no frame, or that
was not changed since it came, is in its file. -/
structure Backs (spared : κ → Bool) (t : Tracked κ π ρ) (c : Cache κ π ρ) : Prop where
  store : c.store = t.store
  dirty : ∀ k f, c.frame k = some f → f.changed = true → f.isDirty = false → t.unsaved k = true
  clean : ∀ k f, c.frame k = some f → f.changed = false → c.file k = some f.content
  pinned : ∀ k, 0 < t.store.pins k → c.frame k ≠ none
  promised : ∀ k, t.unsaved k = true → spared k = true ∨ 0 < t.store.pins k

structure Matches (spared : κ → Bool) (t : Tracked κ π ρ) (c : Cache κ π ρ) : Prop extends Backs spared t c where
  here : ∀ k, t.here k = true → c.frame k ≠ none
  held : ∀ k, 0 < t.store.pins k → t.here k = true

namespace Backs

theorem page_of_frame (h : Backs spared t c) {k : κ} {f : Frame π} (hf : c.frame k = some f) :
    t.store.page k = some f.content := by
  rw [← h.store]
  simp [Cache.store, hf]

theorem pins_of_frame (h : Backs spared t c) {k : κ} {f : Frame π} (hf : c.frame k = some f) :
    t.store.pins k = f.pinCount := by
  rw [← h.store]
  simp [Cache.store, hf]

theorem page_of_file (h : Backs spared t c) {k : κ} (hf : c.frame k = none) : t.store.page k = c.file k := by
  rw [← h.store]
  simp [Cache.store, hf]

variable [DecidableEq κ]

theorem free (h : Backs spared t c) {k : κ} {f : Frame π} (hf : c.frame k = some f) (hpin : f.pinCount = 0)
    (hk : spared k = true → c.loses k = false) :
    Backs spared t (c.free k f) ∧ ∀ x, spared x = true → c.loses x = false → (c.free k f).loses x = false := by
  have hpins : t.store.pins k = 0 := by
    rw [← h.store]
    simpa [Cache.store, hf] using hpin
  -- the page's content is in its file when it goes
  have hsaved : f.isDirty = false → c.file k = some f.content := fun hd => by
    apply h.clean k f hf
    by_contra hch
    rw [Bool.not_eq_false] at hch
    rcases h.promised k (h.dirty k f hf hch hd) with hs | hp
    · have := hk hs
      simp [Cache.loses, hf, hpin, hch, hd] at this
    · omega
  have hfile : (c.free k f).file k = some f.content := by
    cases hd : f.isDirty
    · simpa [Cache.free, hd] using hsaved hd
    · simp [Cache.free, hd]
  have hother : ∀ x, x ≠ k → (c.free k f).file x = c.file x := by
    intro x hx
    unfold Cache.free
    dsimp only
    split <;> simp [hx]
  have hgone : (c.free k f).frame k = none := by simp [Cache.free]
  have hstays : ∀ x, x ≠ k → (c.free k f).frame x = c.frame x := fun x hx => by simp [Cache.free, hx]
  have hne : ∀ x g, (c.free k f).frame x = some g → x ≠ k := by
    rintro x g hx rfl
    rw [hgone] at hx
    cases hx
  refine ⟨⟨?_, fun x g hx => ?_, fun x g hx => ?_, fun x hx => ?_, h.promised⟩, fun x _ hx => ?_⟩
  · rw [← h.store]
    unfold Cache.store
    congr 1
    · funext x
      by_cases hxk : x = k
      · subst hxk
        rw [hgone, hfile, hf]
        rfl
      · rw [hstays x hxk, hother x hxk]
    · funext x
      by_cases hxk : x = k
      · subst hxk
        rw [hgone, hf]
        simp [hpin]
      · rw [hstays x hxk]
  · exact h.dirty x g (hstays x (hne x g hx) ▸ hx)
  · rw [hother x (hne x g hx)]
    exact h.clean x g (hstays x (hne x g hx) ▸ hx)
  · rw [hstays x (by rintro rfl; omega)]
    exact h.pinned x hx
  · by_cases hxk : x = k
    · simp [Cache.loses, hxk, hgone]
    · simpa [Cache.loses, hstays x hxk] using hx

theorem evict (h : Backs spared t c) {k : κ} (hk : spared k = true → c.loses k = false) :
    Backs spared t (c.evict k) ∧ ∀ x, spared x = true → c.loses x = false → (c.evict k).loses x = false := by
  unfold Cache.evict
  rcases hf : c.frame k with _ | f
  · exact ⟨h, fun _ _ hx => hx⟩
  by_cases hpin : f.pinCount = 0
  · simp only [hpin, if_true]
    exact h.free hf hpin hk
  · simp only [hpin, if_false]
    exact ⟨h, fun _ _ hx => hx⟩

theorem evictList {ks : List κ} (h : Backs spared t c) (hk : ∀ x ∈ ks, spared x = true → c.loses x = false) :
    Backs spared t (ks.foldl Cache.evict c) := by
  induction ks generalizing c with
  | nil => exact h
  | cons k ks ih =>
    obtain ⟨h', hlose⟩ := h.evict (hk k List.mem_cons_self)
    exact ih h' fun x hx hs => hlose x hs (hk x (List.mem_cons_of_mem _ hx) hs)

theorem evictAll (h : Backs spared t c) {ks : List κ} (hk : (ks.any fun x => spared x && c.loses x) = false) :
    Backs spared t (c.evictAll ks) := by
  rw [List.any_eq_false] at hk
  have h' := h.evictList fun x hx hs => by
    have := hk x hx
    simpa [hs] using this
  exact ⟨h'.store, h'.dirty, h'.clean, h'.pinned, h'.promised⟩

theorem store_setFrame (c : Cache κ π ρ) (k : κ) (f : Frame π) :
    (c.setFrame k f).store = (c.store.setPage k f.content).setPins k f.pinCount := by
  unfold Cache.store Cache.setFrame
  simp only [PageStore.setPage, PageStore.setPins, PageStore.mk.injEq, and_true]
  constructor <;> funext x <;> by_cases hx : x = k <;> simp [hx]

/-- One page's frame and its bookkeeping change together. -/
theorem setFrame (h : Backs spared t c) {k : κ} {f : Frame π}
    (hstore : (c.store.setPage k f.content).setPins k f.pinCount = t'.store)
    (hunsaved : ∀ x, x ≠ k → t'.unsaved x = t.unsaved x)
    (hdirty : f.changed = true → f.isDirty = false → t'.unsaved k = true)
    (hclean : f.changed = false → c.file k = some f.content)
    (hpromised : t'.unsaved k = true → spared k = true ∨ 0 < f.pinCount) : Backs spared t' (c.setFrame k f) := by
  have hpins : ∀ x, t'.store.pins x = if x = k then f.pinCount else t.store.pins x := by
    intro x
    rw [← hstore, ← h.store]
    by_cases hx : x = k <;> simp [hx]
  have hk : (c.setFrame k f).frame k = some f := by simp [Cache.setFrame]
  have hother : ∀ x, x ≠ k → (c.setFrame k f).frame x = c.frame x := fun x hx => by simp [Cache.setFrame, hx]
  refine ⟨by rw [store_setFrame, hstore], fun x g hg => ?_, fun x g hg => ?_, fun x hx => ?_, fun x hx => ?_⟩
  · by_cases hxk : x = k
    · subst hxk
      obtain rfl := Option.some.inj (hk.symm.trans hg)
      exact hdirty
    · rw [hunsaved x hxk]
      exact h.dirty x g (hother x hxk ▸ hg)
  · by_cases hxk : x = k
    · subst hxk
      obtain rfl := Option.some.inj (hk.symm.trans hg)
      exact hclean
    · exact h.clean x g (hother x hxk ▸ hg)
  · by_cases hxk : x = k
    · subst hxk
      rw [hk]
      exact Option.some_ne_none f
    · rw [hpins, if_neg hxk] at hx
      rw [hother x hxk]
      exact h.pinned x hx
  · rw [hpins]
    by_cases hxk : x = k
    · subst hxk
      rw [if_pos rfl]
      exact hpromised hx
    · rw [if_neg hxk]
      exact h.promised x (hunsaved x hxk ▸ hx)

theorem setFile (h : Backs spared t c) {k : κ} {p : π} (hk : c.frame k = none) :
    Backs spared { t with store := t.store.setPage k p } (c.setFile k p) := by
  have hpage : (c.setFile k p).store = c.store.setPage k p := by
    unfold Cache.store Cache.setFile
    simp only [PageStore.setPage, PageStore.mk.injEq, and_true]
    funext x
    by_cases hx : x = k
    · subst hx
      simp [hk]
    · simp [hx]
  refine ⟨by rw [hpage, h.store], h.dirty, fun x g hg hch => ?_, h.pinned, h.promised⟩
  have hxk : x ≠ k := by
    rintro rfl
    rw [show (c.setFile x p).frame x = c.frame x from rfl, hk] at hg
    cases hg
  simpa [Cache.setFile, hxk] using h.clean x g hg hch

end Backs

variable {choose : Nat → List κ}

namespace Matches

theorem frame_of_here (h : Matches spared t c) {k : κ} (hk : t.here k = true) : ∃ f, c.frame k = some f :=
  Option.ne_none_iff_exists'.1 (h.here k hk)

/-- What is here does not change, and the frame that changes is of a page that is. -/
theorem setFrame [DecidableEq κ] (h : Matches spared t c) {k : κ} {f : Frame π} (hA : Backs spared t' (c.setFrame k f))
    (hhere : t'.here = t.here) (hheld : ∀ x, 0 < t'.store.pins x → t.here x = true) :
    Matches spared t' (c.setFrame k f) := by
  refine ⟨hA, fun x hx => ?_, fun x hx => by rw [hhere]; exact hheld x hx⟩
  rw [hhere] at hx
  by_cases hxk : x = k
  · simp [Cache.setFrame, hxk]
  · simpa [Cache.setFrame, hxk] using h.here x hx

theorem fetch [DecidableEq κ] [Inhabited π] (h : Matches spared t c) {k : κ} {p : π} (hp : t.store.page k = some p)
    (hgo : c.stopped spared choose (.fetchPage k) = false) :
    ∃ c', Cache.exec choose (.fetchPage k) c = some ((), c') ∧ Matches spared (t.fetched k) c' := by
  have hA := h.toBacks.evictAll hgo
  generalize hc : c.evictAll (choose c.time) = d at hA
  have hnew : ∀ f : Frame π, Backs spared (t.fetched k) (d.setFrame k f) →
      Matches spared (t.fetched k) (d.setFrame k f) := by
    intro f hf
    refine ⟨hf, fun x hx => ?_, fun x hx => ?_⟩
    · by_cases hxk : x = k
      · simp [Cache.setFrame, hxk]
      · have hpin : 0 < t.store.pins x := by simpa [Tracked.fetched, hxk] using hx
        simpa [Cache.setFrame, hxk] using hA.pinned x hpin
    · by_cases hxk : x = k
      · simp [Tracked.fetched, hxk]
      · simpa [Tracked.fetched, hxk] using hx
  unfold Cache.exec
  simp only [hc]
  rcases hf : d.frame k with _ | f
  · have hfile : d.file k = some p := hA.page_of_file hf ▸ hp
    simp only [hfile, Option.map_some]
    refine ⟨_, rfl, hnew _ (hA.setFrame ?_ (fun _ _ => rfl) (by simp) (fun _ => hfile) (by simp))⟩
    have hpins : t.store.pins k = 0 := by
      rw [← hA.store]
      simp [Cache.store, hf]
    rw [hA.store]
    simp [Tracked.fetched, hpins, PageStore.setPage, PageStore.setPins, ← hp]
  · simp only
    refine ⟨_, rfl, hnew _ (hA.setFrame ?_ (fun _ _ => rfl) (hA.dirty k f hf) (hA.clean k f hf) (fun _ => by simp))⟩
    have hpins := hA.pins_of_frame hf
    have hcont := hA.page_of_frame hf
    rw [hA.store]
    simp [Tracked.fetched, hpins, PageStore.setPage, PageStore.setPins, ← hcont]

theorem append [DecidableEq κ] [Inhabited π] (h : Matches spared t c) {k : κ} (hp : t.store.page k = none)
    (hgo : c.stopped spared choose (.appendNewPage k) = false) :
    ∃ c', Cache.exec choose (.appendNewPage k) c = some ((), c') ∧ Matches spared (t.appended k) c' := by
  have hA := h.toBacks.evictAll hgo
  generalize hc : c.evictAll (choose c.time) = d at hA
  have hf : d.frame k = none := by
    rcases hf : d.frame k with _ | f
    · rfl
    · rw [hA.page_of_frame hf] at hp
      cases hp
  have hfile : d.file k = none := hA.page_of_file hf ▸ hp
  have hpins : t.store.pins k = 0 := by
    rw [← hA.store]
    simp [Cache.store, hf]
  unfold Cache.exec
  simp only [hc, hf, hfile]
  refine ⟨_, rfl, (hA.setFile (p := default) hf).setFrame ?_ (fun x hx => ?_) (by simp) (fun _ => ?_) (by simp),
    fun x hx => ?_, fun x hx => ?_⟩
  · rw [(hA.setFile hf).store]
    simp [Tracked.appended, hpins, PageStore.setPage, PageStore.setPins]
  · simp [Tracked.appended, hx]
  · simp [Cache.setFile]
  · by_cases hxk : x = k
    · simp [Cache.setFrame, hxk]
    · have hpin : 0 < t.store.pins x := by simpa [Tracked.appended, hxk] using hx
      simpa [Cache.setFrame, Cache.setFile, hxk] using hA.pinned x hpin
  · by_cases hxk : x = k
    · simp [Tracked.appended, hxk]
    · simpa [Tracked.appended, hxk] using hx

theorem unpin [DecidableEq κ] [Inhabited π] (h : Matches spared t c) {k : κ} {d : Bool} (hp : 0 < t.store.pins k)
    (hok : (t.unpinned spared k d).ok = true) :
    ∃ c', Cache.exec choose (.unpinPage k d) c = some ((), c') ∧ Matches spared (t.unpinned spared k d) c' := by
  obtain ⟨f, hf⟩ := h.frame_of_here (h.held k hp)
  have hpins := h.pins_of_frame hf
  have hcont := h.page_of_frame hf
  have hlast : spared k = true ∨ 1 < t.store.pins k ∨ d = true ∨ t.unsaved k = false := by
    simpa [Tracked.unpinned, or_assoc] using (Bool.and_eq_true_iff.1 hok).2
  unfold Cache.exec
  simp only [hf, if_pos (hpins ▸ hp)]
  refine ⟨_, rfl, h.setFrame (h.toBacks.setFrame ?_ (fun x hx => ?_) (fun hch hd => ?_) (fun hch => ?_) (fun hu => ?_)) rfl
    fun x hx => ?_⟩
  · rw [h.store]
    simp [Tracked.unpinned, hpins, PageStore.setPage, PageStore.setPins, ← hcont]
  · cases d <;> simp [Tracked.unpinned, hx]
  · obtain ⟨hfd, rfl⟩ := Bool.or_eq_false_iff.1 hd
    exact h.dirty k f hf hch hfd
  · exact h.clean k f hf hch
  · cases d
    · simp only [Bool.false_eq_true, false_or] at hlast
      rcases hlast with hs | hs | hs
      · exact .inl hs
      · exact .inr (by simp only; omega)
      · simp [Tracked.unpinned, hs] at hu
    · simp [Tracked.unpinned] at hu
  · apply h.held
    by_cases hxk : x = k
    · exact hxk ▸ hp
    · simpa [Tracked.unpinned, hxk] using hx

theorem touch (h : Matches spared t c) {k : κ} (hok : (t.touched k).ok = true) :
    Matches spared (t.touched k) c ∧ ∃ f, c.frame k = some f :=
  ⟨⟨⟨h.store, h.dirty, h.clean, h.pinned, h.promised⟩, h.here, h.held⟩, h.frame_of_here (Bool.and_eq_true_iff.1 hok).2⟩

theorem write [DecidableEq κ] [Inhabited π] (h : Matches spared t c) {k : κ} {p : π}
    (hok : (t.written spared k p).ok = true) :
    ∃ c', Cache.exec choose (.setData k p) c = some ((), c') ∧ Matches spared (t.written spared k p) c' := by
  obtain ⟨hok, hpin⟩ := Bool.and_eq_true_iff.1 hok
  obtain ⟨f, hf⟩ := h.frame_of_here (Bool.and_eq_true_iff.1 hok).2
  have hpins := h.pins_of_frame hf
  unfold Cache.exec
  simp only [hf, Option.map_some]
  refine ⟨_, rfl, h.setFrame (h.toBacks.setFrame ?_ (fun x hx => ?_) (fun _ _ => ?_) (by simp) (fun _ => ?_)) rfl h.held⟩
  · rw [h.store]
    simp [Tracked.written, PageStore.setPage, PageStore.setPins, ← hpins]
  · simp [Tracked.written, hx]
  · simp [Tracked.written]
  · rw [Bool.or_eq_true, decide_eq_true_iff] at hpin
    exact hpins ▸ hpin

theorem latch (h : Matches spared t c) : c.latch = t.store.latch := congrArg PageStore.latch h.store

theorem member (h : Matches spared t c) : c.member = t.store.member := congrArg PageStore.member h.store

theorem setLatch [DecidableEq κ] (h : Matches spared t c) (k : κ) (l : Latch) :
    Matches spared { t with store := t.store.setLatch k l } (c.setLatch k l) := by
  refine ⟨⟨?_, h.dirty, h.clean, h.pinned, h.promised⟩, h.here, h.held⟩
  rw [← h.store]
  rfl

theorem setMember (h : Matches spared t c) (r : ρ) :
    Matches spared { t with store := t.store.withMember r } { c with member := r } := by
  refine ⟨⟨?_, h.dirty, h.clean, h.pinned, h.promised⟩, h.here, h.held⟩
  rw [← h.store]
  rfl

/-- The cache does a call as the store does, if it is not stopped. -/
theorem step [DecidableEq κ] [Inhabited π] (h : Matches spared t c) {o : PageOp κ π ρ} {r : o.Res × Tracked κ π ρ}
    (ho : Tracked.exec spared o t = some r) (hok : r.2.ok = true) (hgo : c.stopped spared choose o = false) :
    ∃ c', Cache.exec choose o c = some (r.1, c') ∧ Matches spared r.2 c' := by
  cases o with
  | fetchPage k =>
    obtain ⟨p, hp, rfl⟩ := Option.map_eq_some_iff.1 ho
    exact h.fetch hp hgo
  | appendNewPage k =>
    simp only [Tracked.exec] at ho
    split at ho
    · rename_i hp
      obtain rfl := Option.some.inj ho
      exact h.append hp hgo
    · cases ho
  | unpinPage k d =>
    simp only [Tracked.exec] at ho
    split at ho
    · rename_i hp
      obtain rfl := Option.some.inj ho
      exact h.unpin hp hok
    · cases ho
  -- a page is read or written through a pin, so it is in a frame
  | getData k =>
    obtain ⟨p, hp, rfl⟩ := Option.map_eq_some_iff.1 ho
    obtain ⟨h', f, hf⟩ := h.touch hok
    rw [h.page_of_frame hf] at hp
    exact ⟨c, by simp [Cache.exec, hf, ← Option.some.inj hp], h'⟩
  | setData k p =>
    obtain ⟨q, -, rfl⟩ := Option.map_eq_some_iff.1 ho
    exact h.write hok
  | getPinCount k =>
    obtain ⟨p, -, rfl⟩ := Option.map_eq_some_iff.1 ho
    obtain ⟨h', f, hf⟩ := h.touch hok
    exact ⟨c, by simp [Cache.exec, hf, h.pins_of_frame hf], h'⟩
  | rLatch k =>
    simp only [Tracked.exec, PageStore.exec] at ho
    split at ho
    · rename_i n hl
      obtain rfl := Option.some.inj ho
      rw [← h.latch] at hl
      exact ⟨_, by simp only [Cache.exec, hl], h.setLatch k _⟩
    · cases ho
  | rUnlatch k =>
    simp only [Tracked.exec, PageStore.exec] at ho
    split at ho
    · rename_i hl
      obtain rfl := Option.some.inj ho
      rw [← h.latch] at hl
      exact ⟨_, by simp only [Cache.exec, hl], h.setLatch k _⟩
    · cases ho
  | wLatch k =>
    simp only [Tracked.exec, PageStore.exec] at ho
    simp only [Cache.exec, h.latch]
    split at ho
    · rename_i hl
      obtain rfl := Option.some.inj ho
      exact ⟨_, if_pos hl, h.setLatch k _⟩
    · cases ho
  | wUnlatch k =>
    simp only [Tracked.exec, PageStore.exec] at ho
    simp only [Cache.exec, h.latch]
    split at ho
    · rename_i hl
      obtain rfl := Option.some.inj ho
      exact ⟨_, if_pos hl, h.setLatch k _⟩
    · cases ho
  | getMember =>
    obtain rfl := Option.some.inj ho
    exact ⟨c, by rw [Cache.exec, h.member], h⟩
  | setMember r =>
    obtain rfl := Option.some.inj ho
    exact ⟨_, rfl, h.setMember r⟩

/-- With no page spared nothing stops it. -/
theorem run_of_spared [DecidableEq κ] [Inhabited π] {α : Type} {p : PageProg κ π ρ α} {a : α}
    (h : Matches (fun _ => false) t c) (choose : Nat → List κ)
    (hp : Prog.run (Tracked.exec fun _ => false) p t = some (a, t')) (hok : t'.ok = true) :
    ∃ d, Prog.run (Cache.exec choose) p c = some (a, d) ∧ Matches (fun _ => false) t' d := by
  induction p generalizing t c with
  | ret x =>
    simp only [Prog.run, Option.some.injEq, Prod.mk.injEq] at hp
    obtain ⟨rfl, rfl⟩ := hp
    exact ⟨c, rfl, h⟩
  | call o k ih =>
    simp only [Prog.run] at hp ⊢
    rcases ho : Tracked.exec (fun _ => false) o t with _ | ⟨r, u⟩
    · simp [ho] at hp
    rw [ho] at hp
    have hgo : c.stopped (fun _ => false) choose o = false := by
      unfold Cache.stopped
      split <;> simp
    obtain ⟨c', hc, h'⟩ := h.step ho (Tracked.ok_of_run hp hok) hgo
    rw [hc]
    exact ih r h' hp
  | fail => simp [Prog.run] at hp

theorem ofFiles {s : PageStore κ π ρ} (hpins : ∀ k, s.pins k = 0) :
    Matches spared (Tracked.ofStore s) (Cache.ofFiles s) := by
  refine ⟨⟨?_, fun k f hf => ?_, fun k f hf => ?_, fun k hk => ?_, fun k hk => ?_⟩, fun k hk => ?_, fun k hk => ?_⟩
  · have hzero : (fun _ => 0) = s.pins := funext fun k => (hpins k).symm
    show (⟨s.page, fun _ => 0, s.latch, s.member⟩ : PageStore κ π ρ) = s
    rw [hzero]
  · cases hf
  · cases hf
  · simp [Tracked.ofStore, hpins] at hk
  · cases hk
  · cases hk
  · simp [Tracked.ofStore, hpins] at hk

end Matches

end

end MisakiDB
