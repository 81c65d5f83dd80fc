import MisakiDB.Lib.Program
import MisakiDB.Lib.Runs
import Mathlib.Algebra.Group.Pi.Basic
import Mathlib.Algebra.BigOperators.Pi
/-!
# Calls under a shared latch

Threads call an object whose calls are programs on its store. A call takes the object's
latch, shared or exclusive, performs its operations one at a time, gives the latch back
and returns. Between two operations of one call any other thread may step.

The calls of an atomic object happen at once. `Linearizes` lists what a latched object needs
to be taken for an atomic one: each call alone does what it should, and a shared call
does no more than leave a contribution of its own in the store for a while. Then every
run of the one looks like a run of the other (`linearizable`), and no call inside is ever
stuck (`never_stuck`).
-/

namespace MisakiDB.Latched

open Prog Runs

/-! ## Operations that do not mind what others contribute

A store `view b f` consists of a base and the contributions of all that use it. -/

section Frame
variable {Op : Type} {Res : Op → Type} {σ B F α : Type} [AddCommMonoid F]

/-- What the operation does, it does beside any further contribution. -/
def Framed (h : Handler Op Res σ) (view : B → F → σ) (o : Op) : Prop :=
  ∀ b f r s, h o (view b f) = some (r, s) → ∃ f', s = view b f' ∧ ∀ g, h o (view b (f + g)) = some (r, view b (f' + g))

variable {h : Handler Op Res σ} {view : B → F → σ}

theorem run_framed {p : Prog Op Res α} (hp : Uses (Framed h view) p) {b : B} {f : F} {a : α} {s : σ}
    (hr : run h p (view b f) = some (a, s)) :
    ∃ f', s = view b f' ∧ ∀ g, run h p (view b (f + g)) = some (a, view b (f' + g)) := by
  induction hp generalizing f with
  | ret a' =>
    obtain ⟨rfl, rfl⟩ := Prod.mk.inj (Option.some.inj hr)
    exact ⟨f, rfl, fun g => rfl⟩
  | @call o k ho _ ih =>
    simp only [run] at hr ⊢
    rcases hop : h o (view b f) with _ | ⟨r, s1⟩
    · simp [hop] at hr
    · obtain ⟨f1, rfl, hg⟩ := ho b f r s1 hop
      rw [hop] at hr
      obtain ⟨f2, rfl, hg2⟩ := ih r hr
      exact ⟨f2, rfl, fun g => by rw [hg g]; exact hg2 g⟩
  | fail => cases hr

end Frame

/-! ## The two objects -/

inductive Event (τ C α : Type)
  | call (t : τ) (c : C)
  | ret (t : τ) (a : α)
  /-- A step inside the object. -/
  | inside (t : τ)

/-- Calls and returns are seen. -/
def Event.see {τ C α : Type} : Event τ C α → Option (Event τ C α)
  | inside _ => none
  | e => some e

inductive Phase (Op : Type) (Res : Op → Type) (C α : Type)
  | idle
  /-- Before the latch. -/
  | waiting (c : C)
  /-- With the latch, and the rest of its program. -/
  | running (c : C) (p : Prog Op Res α)
  | returning (a : α)

structure State (Op : Type) (Res : Op → Type) (σ C α τ : Type) where
  store : σ
  phase : τ → Phase Op Res C α

inductive AtomicPhase (C α : Type)
  | idle
  | called (c : C)
  | returning (a : α)

structure AtomicState (M C α τ : Type) where
  store : M
  phase : τ → AtomicPhase C α

section
variable {Op : Type} {Res : Op → Type} {σ C α M τ : Type} [DecidableEq τ]

def State.goto (s : State Op Res σ C α τ) (t : τ) (x : Phase Op Res C α) : State Op Res σ C α τ :=
  { s with phase := Function.update s.phase t x }

def State.withStore (s : State Op Res σ C α τ) (store : σ) : State Op Res σ C α τ := { s with store }

theorem State.goto_goto (s : State Op Res σ C α τ) (t : τ) (q q' : Phase Op Res C α) (store store' : σ) :
    (((s.withStore store).goto t q).withStore store').goto t q' = (s.withStore store').goto t q' := by
  simp [State.goto, State.withStore]

def AtomicState.goto (s : AtomicState M C α τ) (t : τ) (x : AtomicPhase C α) : AtomicState M C α τ :=
  { s with phase := Function.update s.phase t x }

def AtomicState.withStore (s : AtomicState M C α τ) (store : M) : AtomicState M C α τ := { s with store }

/-- A shared call enters while all inside are shared, an exclusive one when nobody is
inside. -/
inductive Step (h : Handler Op Res σ) (prog : C → σ → Prog Op Res α) (shared : C → Prop) :
    State Op Res σ C α τ → Event τ C α → State Op Res σ C α τ → Prop
  | call {s t c} : s.phase t = .idle → Step h prog shared s (.call t c) (s.goto t (.waiting c))
  | lockShared {s t c} : s.phase t = .waiting c → shared c → (∀ u d p, s.phase u = .running d p → shared d) →
      Step h prog shared s (.inside t) (s.goto t (.running c (prog c s.store)))
  | lock {s t c} : s.phase t = .waiting c → ¬ shared c → (∀ u d p, s.phase u ≠ .running d p) →
      Step h prog shared s (.inside t) (s.goto t (.running c (prog c s.store)))
  | act {s t c o k r store} : s.phase t = .running c (.call o k) → h o s.store = some (r, store) →
      Step h prog shared s (.inside t) ((s.withStore store).goto t (.running c (k r)))
  | unlock {s t c a} : s.phase t = .running c (.ret a) → Step h prog shared s (.inside t) (s.goto t (.returning a))
  | ret {s t a} : s.phase t = .returning a → Step h prog shared s (.ret t a) (s.goto t .idle)

/-- A call happens at once, at some moment between its start and its return. -/
inductive AtomicStep (onStore : M → C → α × M) : AtomicState M C α τ → Event τ C α → AtomicState M C α τ → Prop
  | call {s t c} : s.phase t = .idle → AtomicStep onStore s (.call t c) (s.goto t (.called c))
  | perform {s t c} : s.phase t = .called c →
      AtomicStep onStore s (.inside t) ((s.withStore (onStore s.store c).2).goto t (.returning (onStore s.store c).1))
  | ret {s t a} : s.phase t = .returning a → AtomicStep onStore s (.ret t a) (s.goto t .idle)

/-- Nobody has called. -/
def State.new (store : σ) : State Op Res σ C α τ := ⟨store, fun _ => .idle⟩

def AtomicState.new (store : M) : AtomicState M C α τ := ⟨store, fun _ => .idle⟩

/-- Nobody has the latch. -/
def State.Free (s : State Op Res σ C α τ) : Prop := ∀ t c p, s.phase t ≠ .running c p

end

/-! ## An object that can be taken for an atomic one -/

section
variable {Op : Type} {Res : Op → Type} {σ B F C α M τ : Type} [AddCommMonoid F]

/-- Calls on a store that `R` relates to the atomic one have its answers. A shared call
changes neither; alone on the base it leaves nothing, and what it needs of the store it
finds there whatever others contribute. -/
structure Linearizes (h : Handler Op Res σ) (view : B → F → σ) (prog : C → σ → Prog Op Res α) (shared : C → Prop)
    (onStore : M → C → α × M) (R : σ → M → Prop) : Prop where
  apart : ∀ s m, R s m → ∃ b f, s = view b f
  own : ∀ b f g, view b f = view b g → f = g
  call : ∀ s m c, R s m → ∃ s', run h (prog c s) s = some ((onStore m c).1, s') ∧ R s' (onStore m c).2
  framed : ∀ c s, shared c → Uses (Framed h view) (prog c s)
  read : ∀ b f g m c, shared c → R (view b f) m →
    run h (prog c (view b (f + g))) (view b 0) = some ((onStore m c).1, view b 0) ∧ (onStore m c).2 = m

variable {h : Handler Op Res σ} {view : B → F → σ} {prog : C → σ → Prog Op Res α} {shared : C → Prop}
  {onStore : M → C → α × M} {R : σ → M → Prop}

/-- A call has happened in the atomic object once it has the latch. -/
inductive Phase.Fits : Phase Op Res C α → AtomicPhase C α → Prop
  | idle : Fits .idle .idle
  | waiting (c : C) : Fits (.waiting c) (.called c)
  | running (c : C) (p : Prog Op Res α) (a : α) : Fits (.running c p) (.returning a)
  | returning (a : α) : Fits (.returning a) (.returning a)

section
variable {p : Phase Op Res C α} {q : AtomicPhase C α}

theorem Phase.Fits.of_idle (hf : p.Fits q) (hp : p = .idle) : q = .idle := by
  subst hp
  cases hf
  rfl

theorem Phase.Fits.of_waiting {c : C} (hf : p.Fits q) (hp : p = .waiting c) : q = .called c := by
  subst hp
  cases hf
  rfl

theorem Phase.Fits.of_running {c : C} {r r' : Prog Op Res α} (hf : p.Fits q) (hp : p = .running c r) :
    (Phase.running c r').Fits q := by
  subst hp
  cases hf with
  | running _ _ a => exact .running c r' a

theorem Phase.Fits.of_returning {a : α} (hf : p.Fits q) (hp : p = .returning a) : q = .returning a := by
  subst hp
  cases hf
  rfl

end

variable [Fintype τ]

/-- Only readers are inside. Each has a contribution in the store, and the rest of its
program takes that away. -/
structure Reading (h : Handler Op Res σ) (view : B → F → σ) (shared : C → Prop) (R : σ → M → Prop)
    (x : State Op Res σ C α τ) (y : AtomicState M C α τ) (b : B) (f : F) (part : τ → F) : Prop where
  base : R (view b f) y.store
  store : x.store = view b (f + ∑ t, part t)
  inside : ∀ t c p, x.phase t = .running c p → shared c ∧ Uses (Framed h view) p ∧
    ∃ a, y.phase t = .returning a ∧ run h p (view b (part t)) = some (a, view b 0)
  outside : ∀ t, (∀ c p, x.phase t ≠ .running c p) → part t = 0

/-- One writer is inside. -/
structure Writing (h : Handler Op Res σ) (shared : C → Prop) (R : σ → M → Prop)
    (x : State Op Res σ C α τ) (y : AtomicState M C α τ) (t : τ) (c : C) (p : Prog Op Res α) : Prop where
  inside : x.phase t = .running c p
  exclusive : ¬ shared c
  ends : ∃ a s', y.phase t = .returning a ∧ run h p x.store = some (a, s') ∧ R s' y.store
  outside : ∀ u d q, x.phase u = .running d q → u = t

structure Sim (h : Handler Op Res σ) (view : B → F → σ) (shared : C → Prop) (R : σ → M → Prop)
    (x : State Op Res σ C α τ) (y : AtomicState M C α τ) : Prop where
  fits : ∀ t, (x.phase t).Fits (y.phase t)
  mode : (∃ b f part, Reading h view shared R x y b f part) ∨ ∃ t c p, Writing h shared R x y t c p

variable [DecidableEq τ] {x x' : State Op Res σ C α τ} {y : AtomicState M C α τ} {b : B} {f : F} {part : τ → F}

/-- Any thread that is not inside may move on outside. -/
theorem Reading.goto (hr : Reading h view shared R x y b f part) {t : τ} (hout : ∀ c p, x.phase t ≠ .running c p)
    {q : Phase Op Res C α} (hq : ∀ c p, q ≠ .running c p) (q' : AtomicPhase C α) :
    Reading h view shared R (x.goto t q) (y.goto t q') b f part where
  base := hr.base
  store := hr.store
  inside u c p hu := by
    have hut : u ≠ t := by
      rintro rfl
      exact hq c p (by simpa [State.goto] using hu)
    simp only [State.goto, AtomicState.goto, Function.update_of_ne hut] at hu ⊢
    exact hr.inside u c p hu
  outside u hu := by
    by_cases hut : u = t
    · exact hr.outside u (hut ▸ hout)
    · exact hr.outside u (by simpa [State.goto, hut] using hu)

omit [Fintype τ] in
theorem Writing.goto {u : τ} {c : C} {p : Prog Op Res α} (hw : Writing h shared R x y u c p) {t : τ}
    (hout : ∀ c p, x.phase t ≠ .running c p) {q : Phase Op Res C α} (hq : ∀ c p, q ≠ .running c p)
    (q' : AtomicPhase C α) :
    Writing h shared R (x.goto t q) (y.goto t q') u c p := by
  have hut : u ≠ t := by
    rintro rfl
    exact hout c p hw.inside
  refine ⟨by simpa [State.goto, hut] using hw.inside, hw.exclusive, ?_, fun v d r hv => ?_⟩
  · simpa [State.goto, AtomicState.goto, hut] using hw.ends
  · by_cases hvt : v = t
    · subst hvt
      exact absurd (by simpa [State.goto] using hv) (hq d r)
    · exact hw.outside v d r (by simpa [State.goto, hvt] using hv)

omit [DecidableEq τ] in
theorem Sim.new (hs : Linearizes h view prog shared onStore R) {store : σ} {m : M} (hR : R store m) :
    Sim h view shared R (State.new store : State Op Res σ C α τ) (AtomicState.new m) := by
  obtain ⟨b, f, rfl⟩ := hs.apart store m hR
  refine ⟨fun t => .idle, .inl ⟨b, f, 0, hR, by simp [State.new], fun t c p ht => ?_, fun t _ => rfl⟩⟩
  cases ht

omit [DecidableEq τ] in
/-- While nobody is inside, the store is the atomic one's. -/
theorem Sim.free (hsim : Sim h view shared R x y) (hfree : x.Free) : R x.store y.store := by
  rcases hsim.mode with ⟨b, f, part, hr⟩ | ⟨t, c, p, hw⟩
  · have hzero : part = 0 := funext fun t => hr.outside t (hfree t)
    rw [hr.store, hzero]
    simpa using hr.base
  · exact absurd hw.inside (hfree t c p)

omit [Fintype τ] in
theorem Phase.Fits.goto (hf : ∀ u, (x.phase u).Fits (y.phase u)) {t : τ} {q : Phase Op Res C α} {q' : AtomicPhase C α}
    (hq : q.Fits q') (u : τ) : ((x.goto t q).phase u).Fits ((y.goto t q').phase u) := by
  by_cases hut : u = t
  · subst hut
    simpa [State.goto, AtomicState.goto] using hq
  · simpa [State.goto, AtomicState.goto, hut] using hf u

theorem sum_part (part : τ → F) (t : τ) : ∑ u, part u = part t + ∑ u ∈ Finset.univ.erase t, part u :=
  (Finset.add_sum_erase _ part (Finset.mem_univ t)).symm

theorem sum_update_part (part : τ → F) (t : τ) (f' : F) :
    ∑ u, Function.update part t f' u = f' + ∑ u ∈ Finset.univ.erase t, part u := by
  rw [sum_part, Function.update_self]
  congr 1
  apply Finset.sum_congr rfl
  intro u hu
  rw [Function.update_of_ne (Finset.ne_of_mem_erase hu)]

/-- A reader comes in. -/
theorem Reading.enter (hs : Linearizes h view prog shared onStore R)
    (hr : Reading h view shared R x y b f part) {t : τ} {c : C}
    (ht : x.phase t = .waiting c) (hc : shared c) :
    Reading h view shared R (x.goto t (.running c (prog c x.store)))
      ((y.withStore (onStore y.store c).2).goto t (.returning (onStore y.store c).1)) b f part := by
  have hread := hs.read b f (∑ u, part u) y.store c hc hr.base
  have hpart : part t = 0 := hr.outside t fun d p hd => by rw [ht] at hd; cases hd
  refine ⟨?_, hr.store, fun u d p hu => ?_, fun u hu => ?_⟩
  · show R (view b f) (onStore y.store c).2
    rw [hread.2]
    exact hr.base
  · by_cases hut : u = t
    · subst hut
      simp only [State.goto, AtomicState.goto, Function.update_self, Phase.running.injEq] at hu ⊢
      obtain ⟨rfl, rfl⟩ := hu
      refine ⟨hc, hs.framed c _ hc, _, rfl, ?_⟩
      rw [hpart, hr.store]
      exact hread.1
    · simp only [State.goto, AtomicState.goto, AtomicState.withStore, Function.update_of_ne hut] at hu ⊢
      exact hr.inside u d p hu
  · by_cases hut : u = t
    · exact hut ▸ hpart
    · exact hr.outside u (by simpa [State.goto, hut] using hu)

/-- One operation of a reader: the others' contributions stay in the store. -/
theorem Reading.act (hr : Reading h view shared R x y b f part) {t : τ} {c : C} {o : Op} {k : Res o → Prog Op Res α}
    {r : Res o} {store : σ} (ht : x.phase t = .running c (.call o k)) (hop : h o x.store = some (r, store)) :
    ∃ f', Reading h view shared R ((x.withStore store).goto t (.running c (k r))) y b f (Function.update part t f') := by
  obtain ⟨hc, huses, a, hy, hrun⟩ := hr.inside t c _ ht
  obtain ⟨ho, hk⟩ : Framed h view o ∧ ∀ r, Uses (Framed h view) (k r) := by
    cases huses with
    | call ho hk => exact ⟨ho, hk⟩
  simp only [run] at hrun
  rcases hop' : h o (view b (part t)) with _ | ⟨r', s1⟩
  · simp [hop'] at hrun
  obtain ⟨f', rfl, hg⟩ := ho b (part t) r' s1 hop'
  rw [hop'] at hrun
  have hstore : x.store = view b (part t + (f + ∑ u ∈ Finset.univ.erase t, part u)) := by
    rw [hr.store, sum_part part t, add_left_comm]
  rw [hstore, hg] at hop
  obtain ⟨rfl, rfl⟩ := Prod.mk.inj (Option.some.inj hop)
  refine ⟨f', hr.base, ?_, fun u d p hu => ?_, fun u hu => ?_⟩
  · show view b _ = view b _
    rw [sum_update_part, add_left_comm]
  · by_cases hut : u = t
    · subst hut
      simp only [State.goto, Function.update_self, Phase.running.injEq] at hu ⊢
      obtain ⟨rfl, rfl⟩ := hu
      exact ⟨hc, hk _, a, hy, hrun⟩
    · simp only [State.goto, State.withStore, Function.update_of_ne hut] at hu ⊢
      exact hr.inside u d p hu
  · have hut : u ≠ t := by
      rintro rfl
      exact hu c (k r') (by simp [State.goto])
    rw [Function.update_of_ne hut]
    exact hr.outside u (by simpa [State.goto, State.withStore, hut] using hu)

/-- A reader gives the latch back: its own contribution is gone. -/
theorem Reading.unlock (hs : Linearizes h view prog shared onStore R)
    (hr : Reading h view shared R x y b f part) {t : τ} {c : C}
    {a : α} (ht : x.phase t = .running c (.ret a)) :
    y.phase t = .returning a ∧ Reading h view shared R (x.goto t (.returning a)) y b f part := by
  obtain ⟨hc, -, a', hy, hrun⟩ := hr.inside t c _ ht
  obtain ⟨rfl, hview⟩ := Prod.mk.inj (Option.some.inj hrun)
  refine ⟨hy, hr.base, hr.store, fun u d p hu => ?_, fun u hu => ?_⟩
  · have hut : u ≠ t := by
      rintro rfl
      simp [State.goto] at hu
    exact hr.inside u d p (by simpa [State.goto, hut] using hu)
  · by_cases hut : u = t
    · subst hut
      exact hs.own b _ _ hview
    · exact hr.outside u (by simpa [State.goto, hut] using hu)

/-- A writer comes in. -/
theorem Sim.enter (hs : Linearizes h view prog shared onStore R) (hsim : Sim h view shared R x y) {t : τ} {c : C}
    (hc : ¬ shared c) (hfree : x.Free) :
    Writing h shared R (x.goto t (.running c (prog c x.store)))
      ((y.withStore (onStore y.store c).2).goto t (.returning (onStore y.store c).1)) t c (prog c x.store) := by
  obtain ⟨s', hrun, hR⟩ := hs.call x.store y.store c (hsim.free hfree)
  refine ⟨by simp [State.goto], hc, ⟨_, s', by simp [AtomicState.goto], hrun, hR⟩, fun u d q hu => ?_⟩
  by_contra hut
  exact hfree u d q (by simpa [State.goto, hut] using hu)

/-- A step of the latched object is one of the atomic one, or none: the call happens when
it gets the latch. -/
theorem Sim.step (hs : Linearizes h view prog shared onStore R) (hsim : Sim h view shared R x y) {e : Event τ C α}
    (hstep : Step h prog shared x e x') :
    ∃ l y', Path (AtomicStep onStore) y l y' ∧ trace Event.see l = trace Event.see [(e, x')] ∧
    Sim h view shared R x' y' := by
  cases hstep with
  | @call t c ht =>
    have hy := (hsim.fits t).of_idle ht
    have hout : ∀ d p, x.phase t ≠ .running d p := by simp [ht]
    refine ⟨_, _, .one (.call hy), rfl, Phase.Fits.goto hsim.fits (.waiting c), ?_⟩
    -- who runs is one of the readers, or the writer
    rcases hsim.mode with ⟨b, f, part, hr⟩ | ⟨u, d, p, hw⟩
    · exact .inl ⟨b, f, part, hr.goto hout (fun _ _ => by simp) _⟩
    · exact .inr ⟨u, d, p, hw.goto hout (fun _ _ => by simp) _⟩
  -- a shared call happens here, and leaves the store
  | @lockShared t c ht hc hin =>
    have hy := (hsim.fits t).of_waiting ht
    refine ⟨_, _, .one (.perform hy), rfl, Phase.Fits.goto (y := y.withStore _) hsim.fits (.running c _ _), ?_⟩
    rcases hsim.mode with ⟨b, f, part, hr⟩ | ⟨u, d, p, hw⟩
    · exact .inl ⟨b, f, part, hr.enter hs ht hc⟩
    · exact absurd (hin u d p hw.inside) hw.exclusive
  -- an exclusive call happens here, and the store follows until the latch is given up
  | @lock t c ht hc hin =>
    have hy := (hsim.fits t).of_waiting ht
    exact ⟨_, _, .one (.perform hy), rfl, Phase.Fits.goto (y := y.withStore _) hsim.fits (.running c _ _),
      .inr ⟨t, c, _, hsim.enter hs hc hin⟩⟩
  | @act t c o k r store ht hop =>
    refine ⟨[], y, .nil, rfl, fun u => ?_, ?_⟩
    · by_cases hut : u = t
      · subst hut
        simpa [State.goto] using (hsim.fits u).of_running ht
      · simpa [State.goto, State.withStore, hut] using hsim.fits u
    · rcases hsim.mode with ⟨b, f, part, hr⟩ | ⟨u, d, p, hw⟩
      · obtain ⟨f', hr'⟩ := hr.act ht hop
        exact .inl ⟨b, f, _, hr'⟩
      · obtain rfl := hw.outside t c _ ht
        obtain ⟨rfl, rfl⟩ : c = d ∧ Prog.call o k = p := by simpa [ht] using hw.inside
        refine .inr ⟨t, c, k r, by simp [State.goto], hw.exclusive, ?_, fun v d q hv => ?_⟩
        · obtain ⟨a, s', hy, hrun, hR⟩ := hw.ends
          refine ⟨a, s', hy, ?_, hR⟩
          simpa [run, hop, State.goto, State.withStore] using hrun
        · by_contra hvt
          exact hvt (hw.outside v d q (by simpa [State.goto, State.withStore, hvt] using hv))
  | @unlock t c a ht =>
    rcases hsim.mode with ⟨b, f, part, hr⟩ | ⟨u, d, p, hw⟩
    · obtain ⟨hy, hr'⟩ := hr.unlock hs ht
      refine ⟨[], y, .nil, rfl, fun u => ?_, .inl ⟨b, f, part, hr'⟩⟩
      by_cases hut : u = t
      · subst hut
        simp only [State.goto, Function.update_self, hy]
        exact .returning a
      · simpa [State.goto, hut] using hsim.fits u
    · obtain rfl := hw.outside t c _ ht
      obtain ⟨rfl, rfl⟩ : c = d ∧ Prog.ret a = p := by simpa [ht] using hw.inside
      obtain ⟨a', s', hy, hrun, hR⟩ := hw.ends
      obtain ⟨rfl, rfl⟩ := Prod.mk.inj (Option.some.inj hrun)
      obtain ⟨b, f, hbf⟩ := hs.apart x.store y.store hR
      refine ⟨[], y, .nil, rfl, fun u => ?_, .inl ⟨b, f, 0, hbf ▸ hR, ?_, fun u d q hu => ?_, fun u _ => rfl⟩⟩
      · by_cases hut : u = t
        · subst hut
          simp only [State.goto, Function.update_self, hy]
          exact .returning a
        · simpa [State.goto, hut] using hsim.fits u
      · simpa [State.goto] using hbf
      · have hut : u ≠ t := by
          rintro rfl
          simp [State.goto] at hu
        exact absurd (hw.outside u d q (by simpa [State.goto, hut] using hu)) hut
  | @ret t a ht =>
    have hy := (hsim.fits t).of_returning ht
    have hout : ∀ d p, x.phase t ≠ .running d p := by simp [ht]
    refine ⟨_, _, .one (.ret hy), rfl, Phase.Fits.goto hsim.fits .idle, ?_⟩
    rcases hsim.mode with ⟨b, f, part, hr⟩ | ⟨u, d, p, hw⟩
    · exact .inl ⟨b, f, part, hr.goto hout (fun _ _ => by simp) _⟩
    · exact .inr ⟨u, d, p, hw.goto hout (fun _ _ => by simp) _⟩

/-- What threads see of a latched object, they could see of the atomic one. -/
theorem linearizable (hs : Linearizes h view prog shared onStore R) {store : σ} {m : M} (hR : R store m)
    {l : List (Event τ C α × State Op Res σ C α τ)} (hp : Path (Step h prog shared) (State.new store) l x) :
    ∃ l' y, Path (AtomicStep onStore) (AtomicState.new m) l' y ∧ trace Event.see l' = trace Event.see l ∧
      (x.Free → R x.store y.store) := by
  obtain ⟨l', y, hp', htr, hsim⟩ := hp.simulate (fun s e s' t hst hstep => hst.step hs hstep) (Sim.new hs hR)
  exact ⟨l', y, hp', htr, hsim.free⟩

/-! ## No call is stuck -/

/-- Whoever is inside can end its program from the store as it is. -/
theorem Sim.ends (hsim : Sim h view shared R x y) {t : τ} {c : C} {p : Prog Op Res α} (ht : x.phase t = .running c p) :
    ∃ a s', run h p x.store = some (a, s') := by
  rcases hsim.mode with ⟨b, f, part, hr⟩ | ⟨u, d, q, hw⟩
  · obtain ⟨-, huses, a, -, hrun⟩ := hr.inside t c p ht
    obtain ⟨f', -, hg⟩ := run_framed huses hrun
    refine ⟨a, view b (f' + (f + ∑ u ∈ Finset.univ.erase t, part u)), ?_⟩
    rw [hr.store, sum_part part t, add_left_comm, hg]
  · obtain rfl := hw.outside t c p ht
    obtain ⟨rfl, rfl⟩ : c = d ∧ p = q := by simpa [ht] using hw.inside
    obtain ⟨a, s', -, hrun, -⟩ := hw.ends
    exact ⟨a, s', hrun⟩

variable (prog shared) in
omit [Fintype τ] in
/-- The steps of one thread to the end of its program. -/
theorem runs_out {t : τ} {c : C} {p : Prog Op Res α} {a : α} {s' : σ} (ht : x.phase t = .running c p)
    (hrun : run h p x.store = some (a, s')) :
    ∃ l, Path (Step h prog shared) x l ((x.withStore s').goto t (.returning a)) ∧ trace Event.see l = [] := by
  induction p generalizing x with
  | ret a' =>
    obtain ⟨rfl, rfl⟩ := Prod.mk.inj (Option.some.inj hrun)
    exact ⟨_, .one (.unlock ht), rfl⟩
  | call o k ih =>
    simp only [run] at hrun
    rcases hop : h o x.store with _ | ⟨r, store⟩
    · simp [hop] at hrun
    rw [hop] at hrun
    have hrest := ih r (x := (x.withStore store).goto t (.running c (k r))) (by simp [State.goto]) hrun
    obtain ⟨l, hp, htr⟩ := hrest
    have hone : Path (Step h prog shared) x _ _ := .one (.act ht hop)
    rw [State.goto_goto] at hp
    exact ⟨_, hone.append hp, by rw [trace_append, htr]; rfl⟩
  | fail => cases hrun

variable (prog shared) in
omit [Fintype τ] in
/-- A call that finds the object free and that nobody disturbs. -/
theorem performs {t : τ} {c : C} {a : α} {s' : σ} (ht : x.phase t = .idle) (hfree : x.Free)
    (hrun : run h (prog c x.store) x.store = some (a, s')) :
    ∃ l, Path (Step h prog shared) x l (x.withStore s') ∧ trace Event.see l = [.call t c, .ret t a] := by
  have hcall : Path (Step h prog shared) x [(.call t c, x.goto t (.waiting c))] (x.goto t (.waiting c)) :=
    .one (.call ht)
  have hwaiting : (x.goto t (.waiting c)).phase t = .waiting c := Function.update_self ..
  have hout : ∀ u d p, (x.goto t (.waiting c)).phase u ≠ .running d p := by
    intro u d p hu
    by_cases hut : u = t
    · rw [hut, hwaiting] at hu
      cases hu
    · simp only [State.goto, Function.update_of_ne hut] at hu
      exact hfree u d p hu
  have henter : Step h prog shared (x.goto t (.waiting c)) (.inside t)
      ((x.goto t (.waiting c)).goto t (.running c (prog c x.store))) := by
    by_cases hc : shared c
    · exact .lockShared hwaiting hc fun u d p hu => absurd hu (hout u d p)
    · exact .lock hwaiting hc hout
  have hrunning : ((x.goto t (.waiting c)).goto t (.running c (prog c x.store))).phase t =
    .running c (prog c x.store) :=
    Function.update_self ..
  obtain ⟨l, hp, htr⟩ := runs_out prog shared hrunning hrun
  have hend := ((hcall.snoc henter).append hp).snoc (.ret (a := a) (Function.update_self ..))
  have hback : ((((x.goto t (.waiting c)).goto t (.running c (prog c x.store))).withStore s').goto t (.returning a)).goto t
      .idle = x.withStore s' := by
    simp only [State.goto, State.withStore, Function.update_idem]
    rw [← ht, Function.update_eq_self]
  rw [hback] at hend
  refine ⟨_, hend, ?_⟩
  rw [trace_append, trace_append, htr]
  rfl

/-- How far a call is from being out again. -/
def Phase.left : Phase Op Res C α → Nat
  | waiting _ => 2
  | running _ _ => 1
  | _ => 0

theorem left_goto {t : τ} {q : Phase Op Res C α} (hlt : q.left < (x.phase t).left) :
    ∑ u, ((x.goto t q).phase u).left < ∑ u, (x.phase u).left := by
  have := sum_update Phase.left x.phase t q
  simp only [State.goto]
  omega

/-- From wherever the threads are, those inside and those that wait can go on, with no new
call, until all are out. -/
theorem finishes (hs : Linearizes h view prog shared onStore R) {n : Nat} (hsim : Sim h view shared R x y)
    (hn : ∑ u, (x.phase u).left = n) :
    ∃ l x', Path (Step h prog shared) x l x' ∧ trace Event.see l = [] ∧
      ∀ t, x'.phase t = .idle ∨ ∃ a, x'.phase t = .returning a := by
  induction n using Nat.strong_induction_on generalizing x y with
  | _ n ih =>
    -- one thread moves on, and the induction goes on from there
    have go : ∀ {l0 x1}, Path (Step h prog shared) x l0 x1 → trace Event.see l0 = [] →
        ∑ u, (x1.phase u).left < ∑ u, (x.phase u).left → ∃ l x', Path (Step h prog shared) x l x' ∧
          trace Event.see l = [] ∧ ∀ t, x'.phase t = .idle ∨ ∃ a, x'.phase t = .returning a := by
      intro l0 x1 hp0 htr0 hlt
      obtain ⟨-, y1, -, -, hsim1⟩ := hp0.simulate (fun s e s' t hst hstep => hst.step hs hstep) hsim
      obtain ⟨l, x', hp, htr, hout⟩ := ih _ (hn ▸ hlt) hsim1 rfl
      exact ⟨l0 ++ l, x', hp0.append hp, by rw [trace_append, htr0, htr, List.append_nil], hout⟩
    by_cases hrunning : ∃ t c p, x.phase t = .running c p
    · obtain ⟨t, c, p, ht⟩ := hrunning
      obtain ⟨a, s', hrun⟩ := hsim.ends ht
      obtain ⟨l, hp, htr⟩ := runs_out prog shared ht hrun
      apply go hp htr
      exact left_goto (x := x.withStore s') (by simp [State.withStore, ht, Phase.left])
    · have hfree : x.Free := fun t c p ht => hrunning ⟨t, c, p, ht⟩
      by_cases hwaiting : ∃ t c, x.phase t = .waiting c
      · obtain ⟨t, c, ht⟩ := hwaiting
        have hstep : Step h prog shared x (.inside t) (x.goto t (.running c (prog c x.store))) := by
          by_cases hc : shared c
          · exact .lockShared ht hc fun u d p hu => absurd hu (hfree u d p)
          · exact .lock ht hc hfree
        apply go (.one hstep) rfl
        exact left_goto (by simp [ht, Phase.left])
      · refine ⟨[], x, .nil, rfl, fun t => ?_⟩
        rcases hphase : x.phase t with _ | c | ⟨c, p⟩ | a
        · exact .inl rfl
        · exact absurd ⟨t, c, hphase⟩ hwaiting
        · exact absurd hphase (hfree t c p)
        · exact .inr ⟨a, rfl⟩

/-- In no run does a call come to wait for ever. -/
theorem never_stuck (hs : Linearizes h view prog shared onStore R) {store : σ} {m : M} (hR : R store m)
    {l : List (Event τ C α × State Op Res σ C α τ)} (hp : Path (Step h prog shared) (State.new store) l x) :
    ∃ l' x', Path (Step h prog shared) x l' x' ∧ trace Event.see l' = [] ∧
      ∀ t, x'.phase t = .idle ∨ ∃ a, x'.phase t = .returning a := by
  obtain ⟨-, y, -, -, hsim⟩ := hp.simulate (fun s e s' t hst hstep => hst.step hs hstep) (Sim.new hs hR)
  exact finishes hs hsim rfl

end

end MisakiDB.Latched
