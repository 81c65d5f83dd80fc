import MisakiDB.Buffer.PoolInvariant
import MisakiDB.Lib.Runs
import MisakiDB.Globals
/-!
# Threads sharing a waiting pool

Both database pools are built with `enableCondVar`: a fetch or an append that
finds every frame pinned releases the pool lock and waits, and tries again
each time it is woken. A step of the system is one critical section: a call up
to its return or its wait, one wake-up of a waiting thread up to its return or
its next wait, or an unpin. A waiting thread may be woken at any moment.

`fetchPage` looks the page up before it waits and not again after it. A woken
fetch therefore loads a second copy of a page that became resident meanwhile;
the runs without that step keep one frame a page.
-/

namespace MisakiDB.BufferPoolManager

open Runs

inductive Request (κ : Type)
  | fetch (k : κ)
  | append (k : κ)
  deriving DecidableEq

def Request.key {κ : Type} : Request κ → κ
  | .fetch k => k
  | .append k => k

inductive Event (κ τ : Type)
  | call (t : τ) (r : Request κ)
  | wake (t : τ)
  | unpin (t : τ) (k : κ) (isDirty : Bool)

variable {κ π Φ τ : Type} [DecidableEq κ]

/-- The wait's test and, once it has a frame, the rest of the call. A fetch
whose read throws has taken its frame all the same. -/
def tryFrame [Inhabited π] [PageFile Φ κ π] (s : BufferPoolManager κ π Φ) (r : Request κ) :
    Option FrameID × BufferPoolManager κ π Φ :=
  match s.getVictimPage with
  | (some f, s) =>
    match r with
    | .fetch k => (some f, (s.loadPage k f).2)
    | .append k => (some f, s.newPage k f)
  | (none, s) => (none, s)

/-- The critical section a call starts with. -/
def enter [Inhabited π] [PageFile Φ κ π] (s : BufferPoolManager κ π Φ) (r : Request κ) :
    Option FrameID × BufferPoolManager κ π Φ :=
  match r with
  | .fetch k =>
    match s.fetchExistentPage k with
    | some f => (some f, s.pinResident f)
    | none => s.tryFrame r
  | .append _ => s.tryFrame r

structure Threads (κ π Φ τ : Type) where
  pool : BufferPoolManager κ π Φ
  /-- The call each waiting thread is in. -/
  waiting : τ → Option (Request κ)
  /-- The fetches and appends not yet unpinned, with the frame each got. -/
  taken : List (κ × FrameID)
  /-- The pages some fetch or append was called on. -/
  called : List κ

namespace Threads

def start [Inhabited π] (n : Nat) (φ : Φ) : Threads κ π Φ τ := ⟨init n φ, fun _ => none, [], []⟩

/-- The thread's critical section ended with a frame or with no frame. -/
def settle [DecidableEq τ] (x : Threads κ π Φ τ) (t : τ) (r : Request κ) :
    Option FrameID × BufferPoolManager κ π Φ → Threads κ π Φ τ
  | (some f, s) =>
    { x with pool := s, waiting := Function.update x.waiting t none, taken := (r.key, f) :: x.taken }
  | (none, s) => { x with pool := s, waiting := Function.update x.waiting t (some r) }

/-- Appends are called on fresh page ids. -/
def fresh (x : Threads κ π Φ τ) : Request κ → Bool
  | .append k => k ∉ x.called
  | .fetch _ => true

def next [Inhabited π] [PageFile Φ κ π] [DecidableEq τ] (x : Threads κ π Φ τ) : Event κ τ → Option (Threads κ π Φ τ)
  | .call t r =>
    if x.waiting t = none ∧ x.fresh r then
      some ({ x with called := r.key :: x.called }.settle t r (x.pool.enter r))
    else none
  | .wake t =>
    match x.waiting t with
    | some r => some (x.settle t r (x.pool.tryFrame r))
    | none => none
  | .unpin t k d =>
    if x.waiting t = none then
      some { x with pool := (x.pool.unpinPage k d).2, taken := x.taken.eraseP (fun e => e.1 = k) }
    else none

def Step [Inhabited π] [PageFile Φ κ π] [DecidableEq τ] (x : Threads κ π Φ τ) (e : Event κ τ) (y : Threads κ π Φ τ) :
    Prop :=
  x.next e = some y

/-- One frame a page: no two frames hold the same page, the page table names
the frame of each page held, a frame's pins are the fetches and appends of its
page not yet unpinned, and each of them got that frame. -/
structure Shared (x : Threads κ π Φ τ) : Prop where
  unique : ∀ f g k, f < x.pool.poolSize → g < x.pool.poolSize → (x.pool.pages f).key = some k →
    (x.pool.pages g).key = some k → f = g
  table : ∀ k f, x.pool.fetchExistentPage k = some f ↔ f < x.pool.poolSize ∧ (x.pool.pages f).key = some k
  count : ∀ f k, f < x.pool.poolSize → (x.pool.pages f).key = some k →
    (x.pool.pages f).pinCount = x.taken.countP (fun e => e.1 = k)
  copy : ∀ e ∈ x.taken, e.2 < x.pool.poolSize ∧ (x.pool.pages e.2).key = some e.1

/-- The condition on a step: a woken call that gets a frame finds its page in
no other frame. -/
def Meets [PageFile Φ κ π] (x : Threads κ π Φ τ) : Event κ τ → Prop
  | .wake t => ∀ r f s', x.waiting t = some r → x.pool.getVictimPage = (some f, s') →
      s'.fetchExistentPage r.key = none
  | _ => True

instance [PageFile Φ κ π] (x : Threads κ π Φ τ) : DecidablePred x.Meets
  | .wake t =>
    decidable_of_iff (∀ r ∈ x.waiting t, ∀ f ∈ x.pool.getVictimPage.1,
        x.pool.getVictimPage.2.fetchExistentPage r.key = none) (by
      simp only [Meets, Option.mem_def]
      refine ⟨fun h r f s' hw hg => ?_, fun h r hw f hf => h r f _ hw (Prod.ext hf rfl)⟩
      have := h r hw f (by rw [hg])
      rwa [hg] at this)
  | .call _ _ => .isTrue trivial
  | .unpin _ _ _ => .isTrue trivial

/-! ## The invariant -/

structure Sound (x : Threads κ π Φ τ) : Prop where
  inv : Inv x.pool
  taken : ∀ e ∈ x.taken, e ∈ x.pool.pageTable
  count : ∀ e ∈ x.pool.pageTable, (x.pool.pages e.2).pinCount = x.taken.countP (fun a => a.1 = e.1)
  called : ∀ e ∈ x.pool.pageTable, e.1 ∈ x.called
  asked : ∀ t r, x.waiting t = some r → r.key ∈ x.called

theorem sound_start [Inhabited π] (n : Nat) (φ : Φ) : Sound (start n φ : Threads κ π Φ τ) := by
  refine ⟨inv_init n φ, ?_, ?_, ?_, ?_⟩ <;> simp [start, init]

omit [DecidableEq κ] in
/-- The frames that name a page are the ones the page table lists. -/
theorem key_iff {s : BufferPoolManager κ π Φ} (h : Inv s) (k : κ) (f : FrameID) :
    (k, f) ∈ s.pageTable ↔ f < s.poolSize ∧ (s.pages f).key = some k := by
  refine ⟨fun hk => ⟨h.table_lt _ hk, h.key_eq _ hk⟩, fun ⟨hlt, hk⟩ => ?_⟩
  rcases h.placed f hlt with hf | ⟨q, hq⟩ | hf
  · rw [(h.free_clean f hf).1] at hk; cases hk
  · have := h.key_eq _ hq
    rw [hk, Option.some.injEq] at this
    exact this ▸ hq
  · cases hf

theorem Sound.shared {x : Threads κ π Φ τ} (h : Sound x) : Shared x where
  unique f g k hf hg hfk hgk := h.inv.frame_inj ((key_iff h.inv k f).2 ⟨hf, hfk⟩) ((key_iff h.inv k g).2 ⟨hg, hgk⟩)
  table k f := (h.inv.find k f).trans (key_iff h.inv k f)
  count f k hf hfk := h.count _ ((key_iff h.inv k f).2 ⟨hf, hfk⟩)
  copy e he := (key_iff h.inv e.1 e.2).1 (h.taken e he)

theorem tryFrame_cases [Inhabited π] [PageFile Φ κ π] {s : BufferPoolManager κ π Φ} (h : Inv s) (r : Request κ) :
    (s.getVictimPage.1 = none ∧ s.tryFrame r = (none, s)) ∨
    ∃ f s' p φ, Vacated s f s' ∧ s.getVictimPage = (some f, s') ∧ s.tryFrame r = (some f, s'.placed r.key f p φ) ∧
      p.key = some r.key ∧ p.pinCount = 1 := by
  unfold tryFrame
  have hv := getVictimPage_spec h
  rcases hg : s.getVictimPage with ⟨_ | f, s'⟩
  · rw [hg] at hv
    obtain ⟨rfl, -⟩ := hv
    exact .inl ⟨rfl, rfl⟩
  · rw [hg] at hv
    have hpin := (hv.inv.out_clean f rfl).2.2.2.1
    cases r with
    | fetch k =>
      have hst := loadPage_state (s := s') k f
      exact .inr ⟨f, s', _, _, hv, rfl, congrArg (some f, ·) hst, rfl, by simp [hpin]⟩
    | append k =>
      have hst := newPage_state (s := s') k f
      exact .inr ⟨f, s', _, _, hv, rfl, congrArg (some f, ·) hst, rfl, by simp [hpin]⟩

section
variable {x : Threads κ π Φ τ}

/-- A page that is in no other frame moves into a vacated frame and is handed
to a thread. -/
theorem Sound.place [PageFile Φ κ π] (h : Sound x) {f : FrameID} {s' : BufferPoolManager κ π Φ}
    (hv : Vacated x.pool f s') {k : κ}
    (hk : ∀ g, (k, g) ∉ s'.pageTable) {p : Page κ π} {φ : Φ} (hkey : p.key = some k) (hpin : p.pinCount = 1)
    {w : τ → Option (Request κ)} {cs : List κ} (hsub : ∀ q ∈ x.called, q ∈ cs) (hkc : k ∈ cs)
    (hw : ∀ t r, w t = some r → r.key ∈ cs) :
    Sound { pool := s'.placed k f p φ, waiting := w, taken := (k, f) :: x.taken, called := cs } := by
  have hmem := mem_placed k f p φ hk
  -- nobody holds the vacated frame, and nobody holds `k`
  have hnone : ∀ e ∈ x.taken, e.2 ≠ f := by
    intro e he hc
    have he' := h.taken e he
    have hcount := h.count e he'
    rw [hc, hv.unpinned] at hcount
    have hpos : 0 < x.taken.countP (fun a => a.1 = e.1) := List.countP_pos_iff.2 ⟨e, he, by simp⟩
    omega
  have hnk : ∀ e ∈ x.taken, e.1 ≠ k := fun e he hc =>
    hk e.2 ((hv.table _).2 ⟨show (k, e.2) ∈ _ from hc ▸ h.taken e he, hnone e he⟩)
  have h0 : x.taken.countP (fun e => e.1 = k) = 0 := List.countP_eq_zero.2 fun e he => by simpa using hnk e he
  refine ⟨hv.inv.place hk p φ hkey (by omega), fun e he => ?_, fun e he => ?_, fun e he => ?_, hw⟩
  · rcases List.mem_cons.1 he with rfl | he
    · exact (hmem _).2 (.inl rfl)
    · exact (hmem _).2 (.inr ((hv.table e).2 ⟨h.taken e he, hnone e he⟩))
  · rcases (hmem e).1 he with rfl | he
    · simp [h0, hpin]
    · obtain ⟨he', hef⟩ := (hv.table e).1 he
      have hek : e.1 ≠ k := fun hc => hk e.2 (show (k, e.2) ∈ s'.pageTable from hc ▸ he)
      rw [placed_ne _ _ _ hef, hv.pages _ hef, h.count e he']
      simp [hek.symm]
  · rcases (hmem e).1 he with rfl | he
    · exact hkc
    · exact hsub _ (h.called e ((hv.table e).1 he).1)

/-- A resident page is pinned once more and handed to a thread. -/
theorem Sound.pin (h : Sound x) {k : κ} {f : FrameID} (hk : (k, f) ∈ x.pool.pageTable)
    {w : τ → Option (Request κ)} {cs : List κ} (hsub : ∀ q ∈ x.called, q ∈ cs)
    (hw : ∀ t r, w t = some r → r.key ∈ cs) :
    Sound { pool := x.pool.pinResident f, waiting := w, taken := (k, f) :: x.taken, called := cs } := by
  obtain ⟨h1, -, h3, -, h5⟩ := pinResident_spec h.inv hk
  refine ⟨h1, fun e he => ?_, fun e he => ?_, fun e he => hsub _ (h.called e (h3 ▸ he)), hw⟩
  · rw [h3]
    rcases List.mem_cons.1 he with rfl | he
    · exact hk
    · exact h.taken e he
  · rw [h3] at he
    rw [h5]
    by_cases hek : e.1 = k
    · have hef : e.2 = f := h.inv.frame_inj (show (k, e.2) ∈ _ from hek ▸ he) hk
      rw [hef, Function.update_self, hek]
      simp [h.count _ hk]
    · have hef : e.2 ≠ f := fun hc => hek (h.inv.key_inj (show (e.1, f) ∈ _ from hc ▸ he) hk)
      rw [Function.update_of_ne hef, h.count e he]
      simp [Ne.symm hek]

theorem countP_eraseP (l : List (κ × FrameID)) (k q : κ) :
    (l.eraseP (fun e => e.1 = k)).countP (fun e => e.1 = q) =
      if q = k then l.countP (fun e => e.1 = q) - 1 else l.countP (fun e => e.1 = q) := by
  induction l with
  | nil => simp
  | cons e l ih =>
    by_cases he : e.1 = k
    · rw [List.eraseP_cons_of_pos (by simpa using he)]
      by_cases hq : q = k
      · subst hq; simp [he]
      · simp [he, Ne.symm hq, hq]
    · rw [List.eraseP_cons_of_neg (by simpa using he), List.countP_cons, List.countP_cons, ih]
      by_cases hq : q = k
      · subst hq; simp [he]
      · simp [hq]

theorem Sound.unpin (h : Sound x) (k : κ) (d : Bool) :
    Sound { x with pool := (x.pool.unpinPage k d).2, taken := x.taken.eraseP (fun e => e.1 = k) } := by
  have hsub : ∀ e ∈ x.taken.eraseP (fun e => e.1 = k), e ∈ x.taken := fun e he => List.mem_of_mem_eraseP he
  by_cases hr : ∃ f, (k, f) ∈ x.pool.pageTable
  · obtain ⟨f, hf⟩ := hr
    obtain ⟨h1, -, h3, -, h5, -⟩ := unpinPage_spec h.inv hf d
    refine ⟨h1, fun e he => h3 ▸ h.taken e (hsub e he), fun e he => ?_, fun e he => h.called e (h3 ▸ he), h.asked⟩
    rw [h3] at he
    rw [h5, countP_eraseP]
    by_cases hek : e.1 = k
    · have hef : e.2 = f := h.inv.frame_inj (show (k, e.2) ∈ _ from hek ▸ he) hf
      rw [hef, Function.update_self, if_pos hek, hek, ← h.count _ hf]
      rfl
    · have hef : e.2 ≠ f := fun hc => hek (h.inv.key_inj (show (e.1, f) ∈ _ from hc ▸ he) hf)
      rw [Function.update_of_ne hef, if_neg hek]
      exact h.count e he
  · have hnk : ∀ e ∈ x.taken, e.1 ≠ k := fun e he hc => hr ⟨e.2, show (k, e.2) ∈ _ from hc ▸ h.taken e he⟩
    rw [unpinPage_absent h.inv (fun f hc => hr ⟨f, hc⟩),
      List.eraseP_of_forall_not (fun e he => by simpa using hnk e he)]
    exact h

variable [DecidableEq τ]

theorem update_asked (h : Sound x) (t : τ) (o : Option (Request κ)) (cs : List κ) (hsub : ∀ q ∈ x.called, q ∈ cs)
    (ho : ∀ r, o = some r → r.key ∈ cs) : ∀ u r, Function.update x.waiting t o u = some r → r.key ∈ cs := by
  intro u r hu
  by_cases hut : u = t
  · subst hut; rw [Function.update_self] at hu; exact ho r hu
  · rw [Function.update_of_ne hut] at hu; exact hsub _ (h.asked u r hu)

/-- A critical section that got no frame leaves the pool as it was. -/
theorem Sound.wait (h : Sound x) (t : τ) (r : Request κ) (cs : List κ) (hsub : ∀ q ∈ x.called, q ∈ cs)
    (hr : r.key ∈ cs) : Sound { x with waiting := Function.update x.waiting t (some r), called := cs } :=
  ⟨h.inv, h.taken, h.count, fun e he => hsub _ (h.called e he),
    update_asked h t _ cs hsub (fun r' hr' => by cases hr'; exact hr)⟩

variable [Inhabited π] [PageFile Φ κ π]

/-- Every step that meets the condition keeps the invariant. -/
theorem Sound.step (h : Sound x) {e : Event κ τ} {y : Threads κ π Φ τ} (hs : Step x e y) (hm : x.Meets e) :
    Sound y := by
  unfold Step at hs
  cases e with
  | call t r =>
    simp only [next] at hs
    split at hs
    · rename_i hg
      cases hs
      have hsub : ∀ q ∈ x.called, q ∈ r.key :: x.called := fun q hq => List.mem_cons_of_mem _ hq
      have hr : r.key ∈ r.key :: x.called := List.mem_cons_self
      have hasked := update_asked h t none _ hsub (fun _ hc => by cases hc)
      -- a page that is not resident gets a frame, or the thread waits
      have htry : (∀ f, (r.key, f) ∉ x.pool.pageTable) →
          Sound ({ x with called := r.key :: x.called }.settle t r (x.pool.tryFrame r)) := by
        intro habs
        rcases tryFrame_cases h.inv r with ⟨-, e⟩ | ⟨f, s', p, φ, hv, -, e, hkey, hpin⟩
        · rw [e]; exact h.wait t r _ hsub hr
        · rw [e]
          exact h.place hv (fun g hc => habs g ((hv.table _).1 hc).1) hkey hpin hsub hr hasked
      cases r with
      | fetch k =>
        simp only [enter]
        cases hk : x.pool.fetchExistentPage k with
        | some f => exact h.pin ((h.inv.find k f).1 hk) hsub hasked
        | none => exact htry ((h.inv.find_none k).1 hk)
      | append k =>
        have hfr : k ∉ x.called := by simpa [fresh] using hg.2
        exact htry (fun f hc => hfr (h.called _ hc))
    · cases hs
  | wake t =>
    simp only [next] at hs
    cases hw : x.waiting t with
    | none => rw [hw] at hs; cases hs
    | some r =>
      rw [hw] at hs
      cases hs
      have hr := h.asked t r hw
      rcases tryFrame_cases h.inv r with ⟨-, e⟩ | ⟨f, s', p, φ, hv, hg, e, hkey, hpin⟩
      · rw [e]; exact h.wait t r x.called (fun _ hq => hq) hr
      · rw [e]
        -- this is where the condition is used: nobody loaded the page during the wait
        have habs := (hv.inv.find_none _).1 (hm r f s' hw hg)
        exact h.place hv habs hkey hpin (fun _ hq => hq) hr
          (update_asked h t none _ (fun _ hq => hq) (fun _ hc => by cases hc))
  | unpin t k d =>
    simp only [next] at hs
    split at hs
    · cases hs; exact h.unpin k d
    · cases hs

/-- A woken call that gets a frame while another frame holds its page leaves
the page in both. -/
theorem Sound.not_shared (h : Sound x) {e : Event κ τ} {y : Threads κ π Φ τ} (hs : Step x e y) (hm : ¬ x.Meets e) :
    ¬ Shared y := by
  cases e with
  | call t r => exact absurd trivial hm
  | unpin t k d => exact absurd trivial hm
  | wake t =>
    simp only [Meets, not_forall] at hm
    obtain ⟨r, f, s', hw, hg, hres⟩ := hm
    obtain ⟨g, hres⟩ := Option.ne_none_iff_exists'.1 hres
    simp only [Step, next, hw, Option.some.injEq] at hs
    subst hs
    rcases tryFrame_cases h.inv r with ⟨hn, -⟩ | ⟨f', s'', p, φ, hv, hg', e, hkey, -⟩
    · rw [hg] at hn; cases hn
    · rw [hg, Prod.mk.injEq, Option.some.injEq] at hg'
      obtain ⟨rfl, rfl⟩ := hg'
      rw [e]
      intro hsh
      have hgt := (hv.inv.find _ _).1 hres
      have hgf : g ≠ f := ((hv.table _).1 hgt).2
      refine hgf (hsh.unique g f r.key (hv.inv.table_lt _ hgt) (hv.inv.out_clean f rfl).1 ?_ ?_)
      · exact (congrArg Page.key (placed_ne _ _ _ hgf)).trans (hv.inv.key_eq _ hgt)
      · exact (congrArg Page.key (placed_self _ _ _ _)).trans hkey

end

/-! ## Main theorem -/

/-- In every run of any number of threads whose woken calls find their page in
no other frame, there is one frame a page in every state; and the first step
that breaks the condition breaks that. -/
theorem one_frame_a_page [Inhabited π] [PageFile Φ κ π] [DecidableEq τ] {n : Nat} {φ : Φ} {x : Threads κ π Φ τ}
    (h : Reach (fun x => x = start n φ) (Restrict Step Meets) x) :
    Shared x ∧ ∀ e y, Step x e y → (Shared y ↔ x.Meets e) := by
  have hs : Sound x := h.inv (by rintro _ rfl; exact sound_start n φ) (fun s e s' hs hst => hs.step hst.2 hst.1)
  refine ⟨hs.shared, fun e y hst => ⟨fun hy => ?_, fun hm => (hs.step hst hm).shared⟩⟩
  by_contra hm
  exact hs.not_shared hst hm hy

/-- A file whose pages all exist. -/
def raceFile : MemFile PageKey Nat := ⟨fun _ => some 0⟩

/-- One thread holds both frames, a second waits for page 3 of the data file and is woken by
an unpin, and a third fetches the page after it. -/
def waitEvents : List (Event PageKey Nat) :=
  [.call 0 (.fetch (.DATA, 1)), .call 0 (.fetch (.DATA, 2)), .call 1 (.fetch (.DATA, 3)), .wake 1,
    .unpin 0 (.DATA, 1) false, .wake 1, .call 2 (.fetch (.DATA, 3))]

/-- The two get one frame. -/
theorem one_frame_a_page_waits : ∃ x : Threads PageKey Nat (MemFile PageKey Nat) Nat,
    x.taken = [((.DATA, 3), 0), ((.DATA, 3), 0), ((.DATA, 2), 1)] ∧ Shared x ∧
    ∀ e y, Step x e y → (Shared y ↔ x.Meets e) := by
  have hrun : (follow next (fun x e => x.Meets e) waitEvents
      (start 2 raceFile : Threads PageKey Nat (MemFile PageKey Nat) Nat)).any
      (fun x => x.taken = [((.DATA, 3), 0), ((.DATA, 3), 0), ((.DATA, 2), 1)]) = true := by
    decide
  obtain ⟨x, hx, htaken⟩ := (Option.any_eq_true _ _).1 hrun
  have hreach : Reach (fun x => x = start 2 raceFile) (Restrict Step Meets) x :=
    reach_of_follow (fun _ _ _ hok hnext => ⟨of_decide_eq_true hok, hnext⟩) (.start rfl) hx
  exact ⟨x, of_decide_eq_true htaken, one_frame_a_page hreach⟩

/-! ## The race -/

/-- Two threads wait for page 3 of the data file while a third holds both
frames; each is woken by one of its unpins. -/
def raceEvents : List (Event PageKey Nat) :=
  [.call 0 (.fetch (.DATA, 1)), .call 0 (.fetch (.DATA, 2)), .call 1 (.fetch (.DATA, 3)), .call 2 (.fetch (.DATA, 3)),
    .unpin 0 (.DATA, 1) false, .wake 1, .unpin 0 (.DATA, 2) false, .wake 2]

theorem race_two_copies : ∃ x : Threads PageKey Nat (MemFile PageKey Nat) Nat,
    Reach (fun x => x = start 2 raceFile) Step x ∧ ¬ Shared x := by
  have hrun : (follow next (fun _ _ => true) raceEvents
      (start 2 raceFile : Threads PageKey Nat (MemFile PageKey Nat) Nat)).any (fun x =>
      x.pool.poolSize = 2 ∧ (x.pool.pages 0).key = some (.DATA, 3) ∧
        (x.pool.pages 1).key = some (.DATA, 3)) = true := by
    decide
  obtain ⟨x, hx, hp⟩ := (Option.any_eq_true _ _).1 hrun
  simp only [Bool.decide_and, Bool.and_eq_true, decide_eq_true_eq] at hp
  refine ⟨x, reach_of_follow (fun _ _ _ _ hnext => hnext) (.start rfl) hx, fun h => ?_⟩
  exact absurd (h.unique 0 1 _ (by omega) (by omega) hp.2.1 hp.2.2) (by decide)

end Threads

end MisakiDB.BufferPoolManager
