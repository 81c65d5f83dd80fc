import MisakiDB.Buffer.PoolThreads
/-!
# Who wakes a thread that waits for a frame

The steps are those of `PoolThreads`, and a thread in the wait is asleep until an unpin
notifies it: one that takes the last pin off a page calls `notify_one`. A thread may also
wake for no reason. Every run here is one of `PoolThreads` (`reach_threads`), with the steps of
which it shares the condition for one frame a page.

A notified thread may come too late, and then it sleeps again with its notification
spent. No frame is lost over that: while a thread sleeps, there are no more free and
evictable frames than notified threads on their way to them (`frames_for_woken`).
-/

namespace MisakiDB.BufferPoolManager

open Runs

variable {κ π Φ τ : Type} [DecidableEq κ] [DecidableEq τ]

/-! ## The frames that `getVictimPage` can give -/

def available (s : BufferPoolManager κ π Φ) : Nat := s.freeList.length + s.replacer.frames.length

/-- The unpin takes the last pin off the page. -/
def frees (s : BufferPoolManager κ π Φ) (k : κ) : Prop := ∃ f, s.fetchExistentPage k = some f ∧ (s.pages f).pinCount = 1

section Frames
variable {s s' : BufferPoolManager κ π Φ}

/-- One frame is taken, or there is none. -/
structure Takes (s : BufferPoolManager κ π Φ) (r : Option FrameID × BufferPoolManager κ π Φ) : Prop where
  valid : r.2.replacer.Valid
  frame : ∀ f, r.1 = some f → r.2.available + 1 = s.available
  none : r.1 = none → r.2 = s ∧ s.available = 0

omit [DecidableEq κ] in
theorem Takes.some {f : FrameID} (hv : s'.replacer.Valid) (ha : s'.available + 1 = s.available) :
    s.Takes (some f, s') :=
  ⟨hv, fun _ _ => ha, fun h => by cases h⟩

variable [PageFile Φ κ π]

theorem getVictimPage_takes (h : s.replacer.Valid) : s.Takes s.getVictimPage := by
  unfold getVictimPage
  cases hl : s.freeList with
  | cons f rest =>
    refine .some h ?_
    simp only [available, hl, List.length_cons]
    omega
  | nil =>
    have hv := LRUReplacer.victim_spec h
    unfold evictPage
    cases hr : s.replacer.victim with
    | none =>
      rw [hr] at hv
      refine ⟨h, fun f hf => ?_, fun _ => ⟨rfl, by simp [available, hl, hv]⟩⟩
      cases hf
    | some e =>
      obtain ⟨f, r⟩ := e
      rw [hr] at hv
      obtain ⟨hvalid, hframes⟩ := hv
      have hcount : s.freeList.length + r.frames.length + 1 = s.available := by
        simp only [available, hframes, List.length_append, List.length_singleton]
        omega
      -- with or without the write, the frame has left the replacer
      dsimp only
      split
      · exact .some hvalid hcount
      · exact .some hvalid hcount

theorem loadPage_available (k : κ) (f : FrameID) :
    (s.loadPage k f).2.replacer = s.replacer ∧ (s.loadPage k f).2.available = s.available := by
  rw [loadPage_state]
  exact ⟨rfl, rfl⟩

variable [Inhabited π]

theorem newPage_available (k : κ) (f : FrameID) :
    (s.newPage k f).replacer = s.replacer ∧ (s.newPage k f).available = s.available := by
  rw [newPage_state]
  exact ⟨rfl, rfl⟩

theorem tryFrame_takes (h : s.replacer.Valid) (r : Request κ) : s.Takes (s.tryFrame r) := by
  have hv := getVictimPage_takes h
  unfold tryFrame
  generalize s.getVictimPage = g at hv
  obtain ⟨_ | f, u⟩ := g
  · exact hv
  · cases r with
    | fetch k =>
      obtain ⟨hr, ha⟩ := loadPage_available (s := u) k f
      exact .some (hr ▸ hv.valid) (ha ▸ hv.frame f rfl)
    | append k =>
      obtain ⟨hr, ha⟩ := newPage_available (s := u) k f
      exact .some (hr ▸ hv.valid) (ha ▸ hv.frame f rfl)

/-- A call takes at most one frame, and waits only if there is none. -/
theorem enter_available (h : s.replacer.Valid) (r : Request κ) :
    (s.enter r).2.replacer.Valid ∧ (s.enter r).2.available ≤ s.available ∧
      ((s.enter r).1 = none → (s.enter r).2.available = 0) := by
  -- a frame is taken for a page to load, unless none can be had
  have htry : (s.tryFrame r).2.replacer.Valid ∧ (s.tryFrame r).2.available ≤ s.available ∧
      ((s.tryFrame r).1 = none → (s.tryFrame r).2.available = 0) := by
    have hv := tryFrame_takes h r
    refine ⟨hv.valid, ?_, fun hnone => ?_⟩
    · cases hr : (s.tryFrame r).1 with
      | none => rw [(hv.none hr).1]
      | some f => exact Nat.le_of_succ_le (hv.frame f hr).le
    · rw [(hv.none hnone).1]
      exact (hv.none hnone).2
  cases r with
  | append k => exact htry
  | fetch k =>
    cases hk : s.fetchExistentPage k with
    | none =>
      have henter : s.enter (.fetch k) = s.tryFrame (.fetch k) := by simp only [enter, hk]
      rw [henter]
      exact htry
    | some f =>
      have henter : s.enter (.fetch k) = (some f, s.pinResident f) := by simp only [enter, hk]
      rw [henter]
      refine ⟨?_, ?_, fun hc => ?_⟩
      · unfold pinResident
        dsimp only
        split
        · exact LRUReplacer.pin_valid h f
        · exact h
      -- a resident page is no longer evictable once it is pinned
      rotate_left
      · cases hc
      · unfold pinResident
        dsimp only
        split
        · have hle := List.length_erase_le (a := f) (l := s.replacer.frames)
          rw [← LRUReplacer.pin_frames h] at hle
          exact Nat.add_le_add_left hle _
        · exact le_rfl

omit [Inhabited π] [PageFile Φ κ π] in
/-- An unpin adds a frame only if it notifies. -/
theorem unpinPage_available (h : s.replacer.Valid) (k : κ) (d : Bool) :
    (s.unpinPage k d).2.replacer.Valid ∧ (s.unpinPage k d).2.available ≤ s.available + 1 ∧
      (¬ s.frees k → (s.unpinPage k d).2.available = s.available) := by
  unfold unpinPage
  cases hk : s.fetchExistentPage k with
  | none => exact ⟨h, Nat.le_succ _, fun _ => rfl⟩
  | some f =>
    dsimp only
    split
    · exact ⟨h, Nat.le_succ _, fun _ => rfl⟩
    rename_i hpos
    split
    · rename_i hlast
      have hone : (s.pages f).pinCount = 1 := by omega
      refine ⟨LRUReplacer.unpin_valid h f, ?_, fun hno => absurd ⟨f, hk, hone⟩ hno⟩
      show s.freeList.length + (s.replacer.unpin f).frames.length ≤ _
      rw [LRUReplacer.unpin_frames h]
      unfold available
      split
      · omega
      · rw [List.length_cons]
        omega
    · exact ⟨h, Nat.le_succ _, fun _ => rfl⟩

end Frames

/-! ## The threads -/

variable [Inhabited π]

/-- The threads, and which of those in the wait have been notified. -/
structure Sleepers (κ π Φ τ : Type) where
  threads : Threads κ π Φ τ
  woken : τ → Bool

namespace Sleepers

def start (n : Nat) (φ : Φ) : Sleepers κ π Φ τ := ⟨.start n φ, fun _ => false⟩

def Asleep (x : Sleepers κ π Φ τ) (t : τ) : Prop := x.threads.waiting t ≠ none ∧ x.woken t = false

/-- The step of the threads that an event is, with the notification it sends or spends. -/
inductive Step [PageFile Φ κ π] : Sleepers κ π Φ τ → Event κ τ → Sleepers κ π Φ τ → Prop
  | call {x t r y} : x.threads.next (.call t r) = some y → Step x (.call t r) { x with threads := y }
  | wake {x t y} : x.woken t = true → x.threads.next (.wake t) = some y →
      Step x (.wake t) ⟨y, Function.update x.woken t false⟩
  | spurious {x t y} : Asleep x t → x.threads.next (.wake t) = some y → Step x (.wake t) { x with threads := y }
  | unpin {x t k d y} : ¬ x.threads.pool.frees k → x.threads.next (.unpin t k d) = some y →
      Step x (.unpin t k d) { x with threads := y }
  | notifyOne {x t k d u y} : x.threads.pool.frees k → Asleep x u → x.threads.next (.unpin t k d) = some y →
      Step x (.unpin t k d) ⟨y, Function.update x.woken u true⟩
  | notifyNone {x t k d y} : x.threads.pool.frees k → (∀ u, ¬ Asleep x u) → x.threads.next (.unpin t k d) = some y →
      Step x (.unpin t k d) { x with threads := y }

variable {x y : Sleepers κ π Φ τ}

theorem Step.threads [PageFile Φ κ π] {e : Event κ τ} (h : Step x e y) : Threads.Step x.threads e y.threads := by
  cases h with
  | call h => exact h
  | wake _ h => exact h
  | spurious _ h => exact h
  | unpin _ h => exact h
  | notifyOne _ _ h => exact h
  | notifyNone _ _ h => exact h

theorem reach_threads [PageFile Φ κ π] {n : Nat} {φ : Φ} (h : Reach (fun x => x = start n φ) Step x) :
    Reach (fun x => x = Threads.start n φ) Threads.Step x.threads := by
  refine h.inv (I := fun x => Reach _ Threads.Step x.threads) ?_ fun _ _ _ ih hs => ih.next hs.threads
  rintro _ rfl
  exact .start rfl

variable [Fintype τ]

/-- How many have been notified and not tried yet. -/
def wokenCount (x : Sleepers κ π Φ τ) : Nat := ∑ t, if x.woken t = true then 1 else 0

structure Heard (x : Sleepers κ π Φ τ) : Prop where
  valid : x.threads.pool.replacer.Valid
  woken : ∀ t, x.woken t = true → x.threads.waiting t ≠ none
  heard : ∀ t, Asleep x t → x.threads.pool.available ≤ x.wokenCount

omit [DecidableEq κ] [DecidableEq τ] in
theorem heard_start (n : Nat) (φ : Φ) : Heard (start n φ : Sleepers κ π Φ τ) :=
  ⟨LRUReplacer.valid_empty, fun _ h => (Bool.false_ne_true h).elim, fun _ h => absurd rfl h.1⟩

omit [DecidableEq κ] [Inhabited π] in
theorem wokenCount_update (x : Sleepers κ π Φ τ) (t : τ) (b : Bool) (z : Threads κ π Φ τ) :
    wokenCount (⟨z, Function.update x.woken t b⟩ : Sleepers κ π Φ τ) + (if x.woken t = true then 1 else 0) =
      x.wokenCount + if b = true then 1 else 0 :=
  sum_update (fun b : Bool => if b = true then 1 else 0) x.woken t b

omit [DecidableEq κ] [Inhabited π] [Fintype τ] in
/-- What a critical section leaves of the waiting threads. -/
theorem settle_spec (z : Threads κ π Φ τ) (t : τ) (r : Request κ) (o : Option FrameID × BufferPoolManager κ π Φ) :
    (z.settle t r o).pool = o.2 ∧
      (z.settle t r o).waiting = Function.update z.waiting t (if o.1 = none then some r else none) := by
  obtain ⟨_ | f, s⟩ := o
  · exact ⟨rfl, rfl⟩
  · exact ⟨rfl, rfl⟩

variable [PageFile Φ κ π]

/-- A wake-up that finds a frame takes it; one that finds none leaves the thread where it was. -/
theorem wake_spec (h : Heard x) {t : τ} {z : Threads κ π Φ τ} (hz : x.threads.next (.wake t) = some z) :
    z.pool.replacer.Valid ∧
      (z.pool.available + 1 = x.threads.pool.available ∧ z.waiting = Function.update x.threads.waiting t none ∨
        z.pool.available = 0 ∧ z.waiting = x.threads.waiting) := by
  simp only [Threads.next] at hz
  cases hw : x.threads.waiting t with
  | none =>
    rw [hw] at hz
    cases hz
  | some r =>
    rw [hw] at hz
    obtain rfl := Option.some.inj hz
    have htakes := tryFrame_takes h.valid r
    obtain ⟨hpool, hwait⟩ := settle_spec x.threads t r (x.threads.pool.tryFrame r)
    rw [hpool, hwait]
    refine ⟨htakes.valid, ?_⟩
    cases ho : (x.threads.pool.tryFrame r).1 with
    | some f => exact .inl ⟨htakes.frame f ho, rfl⟩
    | none =>
      obtain ⟨heq, hzero⟩ := htakes.none ho
      rw [heq, if_pos rfl, ← hw, Function.update_eq_self]
      exact .inr ⟨hzero, rfl⟩

theorem unpin_spec (h : Heard x) {t : τ} {k : κ} {d : Bool} {z : Threads κ π Φ τ}
    (hz : x.threads.next (.unpin t k d) = some z) :
    z.pool.replacer.Valid ∧ z.waiting = x.threads.waiting ∧ z.pool.available ≤ x.threads.pool.available + 1 ∧
      (¬ x.threads.pool.frees k → z.pool.available = x.threads.pool.available) := by
  simp only [Threads.next] at hz
  split at hz
  · obtain rfl := Option.some.inj hz
    obtain ⟨hvalid, hle, hsame⟩ := unpinPage_available h.valid k d
    exact ⟨hvalid, rfl, hle, hsame⟩
  · cases hz

theorem call_spec (h : Heard x) {t : τ} {r : Request κ} {z : Threads κ π Φ τ}
    (hz : x.threads.next (.call t r) = some z) :
    x.threads.waiting t = none ∧ z.pool.replacer.Valid ∧ z.pool.available ≤ x.threads.pool.available ∧
      (∀ u, u ≠ t → z.waiting u = x.threads.waiting u) ∧ (z.waiting t ≠ none → z.pool.available = 0) := by
  simp only [Threads.next] at hz
  split at hz
  · rename_i hg
    obtain rfl := Option.some.inj hz
    obtain ⟨hvalid, hle, hnone⟩ := enter_available h.valid r
    obtain ⟨hpool, hwait⟩ := settle_spec { x.threads with called := r.key :: x.threads.called } t r (x.threads.pool.enter r)
    rw [hpool, hwait]
    refine ⟨hg.1, hvalid, hle, fun u hu => Function.update_of_ne hu _ _, fun hsleep => hnone ?_⟩
    rw [Function.update_self] at hsleep
    by_contra hsome
    exact hsleep (if_neg hsome)
  · cases hz

theorem Heard.step (h : Heard x) {e : Event κ τ} (hs : Step x e y) : Heard y := by
  cases hs with
  | @call t r z hz =>
    obtain ⟨hidle, hvalid, hle, hother, hzero⟩ := call_spec h hz
    refine ⟨hvalid, fun u hu => ?_, fun u hu => ?_⟩
    · have hut : u ≠ t := by
        rintro rfl
        exact h.woken u hu hidle
      show z.waiting u ≠ none
      rw [hother u hut]
      exact h.woken u hu
    · by_cases hut : u = t
      · subst hut
        exact (hzero hu.1).trans_le (Nat.zero_le _)
      · have hold : Asleep x u := ⟨by rw [← hother u hut]; exact hu.1, hu.2⟩
        exact hle.trans (h.heard u hold)
  | @wake t z hw hz =>
    obtain ⟨hvalid, hcases⟩ := wake_spec h hz
    have hcount := wokenCount_update x t false z
    rw [if_pos hw, if_neg Bool.false_ne_true] at hcount
    refine ⟨hvalid, fun u hu => ?_, fun u hu => ?_⟩
    · have hut : u ≠ t := by
        rintro rfl
        simp at hu
      have hu : Function.update x.woken t false u = true := hu
      rw [Function.update_of_ne hut] at hu
      rcases hcases with ⟨-, hwait⟩ | ⟨-, hwait⟩
      · show z.waiting u ≠ none
        rw [hwait, Function.update_of_ne hut]
        exact h.woken u hu
      · show z.waiting u ≠ none
        rw [hwait]
        exact h.woken u hu
    · rcases hcases with ⟨htaken, hwait⟩ | ⟨hzero, -⟩
      · -- the frame that is gone was the notified thread's
        obtain ⟨hsleep, hno⟩ := hu
        have hsleep : z.waiting u ≠ none := hsleep
        have hut : u ≠ t := by
          rintro rfl
          simp [hwait] at hsleep
        rw [hwait, Function.update_of_ne hut] at hsleep
        have hno : Function.update x.woken t false u = false := hno
        rw [Function.update_of_ne hut] at hno
        have := h.heard u ⟨hsleep, hno⟩
        show z.pool.available ≤ _
        omega
      · exact hzero.trans_le (Nat.zero_le _)
  | @spurious t z hsleep hz =>
    obtain ⟨hvalid, hcases⟩ := wake_spec h hz
    refine ⟨hvalid, fun u hu => ?_, fun u hu => ?_⟩
    · have hut : u ≠ t := by
        rintro rfl
        rw [hsleep.2] at hu
        cases hu
      rcases hcases with ⟨-, hwait⟩ | ⟨-, hwait⟩
      · show z.waiting u ≠ none
        rw [hwait, Function.update_of_ne hut]
        exact h.woken u hu
      · show z.waiting u ≠ none
        rw [hwait]
        exact h.woken u hu
    · have hle : z.pool.available ≤ x.threads.pool.available := by
        rcases hcases with ⟨htaken, -⟩ | ⟨hzero, -⟩ <;> omega
      exact hle.trans (h.heard t hsleep)
  | @unpin t k d z hno hz =>
    obtain ⟨hvalid, hwait, -, hsame⟩ := unpin_spec h hz
    refine ⟨hvalid, fun u hu => ?_, fun u hu => ?_⟩
    · show z.waiting u ≠ none
      rw [hwait]
      exact h.woken u hu
    · have hold : Asleep x u := ⟨by rw [← hwait]; exact hu.1, hu.2⟩
      exact (hsame hno).trans_le (h.heard u hold)
  | @notifyOne t k d v z hfrees hv hz =>
    obtain ⟨hvalid, hwait, hle, -⟩ := unpin_spec h hz
    have hcount := wokenCount_update x v true z
    rw [hv.2, if_neg Bool.false_ne_true, if_pos rfl] at hcount
    refine ⟨hvalid, fun u hu => ?_, fun u _ => ?_⟩
    · show z.waiting u ≠ none
      rw [hwait]
      by_cases huv : u = v
      · exact huv ▸ hv.1
      · exact h.woken u (by simpa [huv] using hu)
    · have := h.heard v hv
      show z.pool.available ≤ _
      omega
  | @notifyNone t k d z hfrees hnone hz =>
    obtain ⟨hvalid, hwait, -, -⟩ := unpin_spec h hz
    refine ⟨hvalid, fun u hu => ?_, fun u hu => ?_⟩
    · show z.waiting u ≠ none
      rw [hwait]
      exact h.woken u hu
    · exact absurd ⟨by rw [← hwait]; exact hu.1, hu.2⟩ (hnone u)

/-- In no run does a thread sleep while more frames can be had than there are notified
threads that have not tried yet. So if all that wait are asleep, none is free and none can
be evicted. -/
theorem frames_for_woken {n : Nat} {φ : Φ} (h : Reach (fun x => x = start n φ) Step x) {t : τ} (ht : Asleep x t) :
    x.threads.pool.available ≤ x.wokenCount ∧
      ((∀ u, x.woken u = false) → x.threads.pool.freeList = [] ∧ x.threads.pool.replacer.frames = []) := by
  have hx : Heard x := h.inv (by rintro _ rfl; exact heard_start n φ) fun _ _ _ hx hs => hx.step hs
  refine ⟨hx.heard t ht, fun hnone => ?_⟩
  have hzero : x.wokenCount = 0 := by simp [wokenCount, hnone]
  have havail := hx.heard t ht
  rw [hzero, available] at havail
  constructor
  · exact List.length_eq_zero_iff.1 (by omega)
  · exact List.length_eq_zero_iff.1 (by omega)

/-- One thread has the only frame, and another waits for it. -/
theorem frames_for_woken_one : ∃ x : Sleepers PageKey Nat (MemFile PageKey Nat) Bool, Asleep x true ∧
    x.threads.pool.poolSize = 1 ∧ x.threads.pool.freeList = [] ∧ x.threads.pool.replacer.frames = [] := by
  have h0 : Reach (fun x => x = start 1 Threads.raceFile) Step (start 1 Threads.raceFile : Sleepers _ _ _ Bool) :=
    .start rfl
  have h1 := h0.next (.call (t := false) (r := .fetch (.DATA, 1)) rfl)
  have h2 := h1.next (.call (t := true) (r := .fetch (.DATA, 2)) rfl)
  have hnone := (frames_for_woken h2 (t := true) ⟨by decide, rfl⟩).2 fun _ => rfl
  refine ⟨_, ?_, ?_, hnone⟩
  · exact ⟨by decide, rfl⟩
  · rfl

end Sleepers

end MisakiDB.BufferPoolManager
