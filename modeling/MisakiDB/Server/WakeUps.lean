import MisakiDB.Server.ThreadPool
import Mathlib.Data.Fintype.Basic
import Mathlib.Algebra.Order.BigOperators.Group.Finset
/-!
# The notifications of `ThreadPool`

The steps are those of the pool, and a worker in the wait is asleep until somebody
notifies it: `submit` one of those asleep, if there is any, the destructor all of them. It
may also wake for no reason. Every run here is one of the pool (`reach_pool`), so what holds in
all of those holds here.

No wake-up is lost: while a worker is asleep, as many workers and callers as there are
tasks are on their way to the queue (`no_lost_wakeup`). So a pool with a worker, to which
nothing new is submitted, takes a bounded number of steps and four more each time a worker
wakes for no reason; when nobody can go on every task has been run (`comes_to_rest`).
-/

namespace MisakiDB.ThreadPool.WakeUps

open Runs ThreadPool.State

structure Pool (n : Nat) (C : Type) where
  state : State n C
  /-- The workers in the wait that have been notified. -/
  woken : Fin n → Bool

inductive Event (n : Nat) (C : Type)
  | act (a : Act n C)
  | spurious (w : Fin n)

section
variable {n : Nat} {C : Type}

/-- What there is to know of a worker. -/
def Pool.at (p : Pool n C) (w : Fin n) : Phase × Bool := (p.state.workers w, p.woken w)

def Asleep (p : Pool n C) (w : Fin n) : Prop := p.at w = (.waiting, false)

/-- Neither a notification nor the end of a wait. -/
def Plain (s : State n C) : Act n C → Prop
  | .worker w => s.workers w ≠ .waiting
  | .caller c => s.callers c ≠ .emplaced
  | .destructor => s.destructor ≠ .unlocked

inductive Step [DecidableEq C] : Pool n C → Event n C → Pool n C → Prop
  | plain {p a s} : Plain p.state a → ThreadPool.Step p.state a s → Step p (.act a) { p with state := s }
  | wake {p w} : p.state.workers w = .waiting → p.woken w = true →
      Step p (.act (.worker w)) ⟨p.state.goto w .locking, Function.update p.woken w false⟩
  | spurious {p w} : Asleep p w → Step p (.spurious w) { p with state := p.state.goto w .locking }
  | notifyOne {p c w} : p.state.callers c = .emplaced → Asleep p w →
      Step p (.act (.caller c)) ⟨p.state.submit c .notified, Function.update p.woken w true⟩
  | notifyNone {p c} : p.state.callers c = .emplaced → (∀ w, ¬ Asleep p w) →
      Step p (.act (.caller c)) { p with state := p.state.submit c .notified }
  | notifyAll {p} : p.state.destructor = .unlocked →
      Step p (.act .destructor) ⟨{ p.state with destructor := .joining },
        fun w => decide (p.state.workers w = .waiting)⟩

def Init (p : Pool n C) : Prop := ThreadPool.State.Init p.state ∧ ∀ w, p.woken w = false

variable {p p' : Pool n C} {w : Fin n} {c : C}

/-- The pool does nothing that the one with wake-ups at any time does not. -/
theorem Step.pool [DecidableEq C] {e : Event n C} (h : Step p e p') : ∃ a, ThreadPool.Step p.state a p'.state := by
  cases h with
  | plain _ hs => exact ⟨_, hs⟩
  | wake hw _ => exact ⟨_, .wake hw⟩
  | spurious hw => exact ⟨_, .wake (congrArg Prod.fst hw)⟩
  | notifyOne hc _ => exact ⟨_, .notifyOne hc⟩
  | notifyNone hc _ => exact ⟨_, .notifyOne hc⟩
  | notifyAll hd => exact ⟨_, .notifyAll hd⟩

theorem reach_pool [DecidableEq C] (h : Reach Init Step p) : Reach ThreadPool.State.Init ThreadPool.Step p.state := by
  apply h.inv (I := fun p => Reach ThreadPool.State.Init ThreadPool.Step p.state) (fun p hp => .start hp.1)
  intro p e p' ih hstep
  obtain ⟨a, hs⟩ := hstep.pool
  exact ih.next hs

/-! ## Whoever is said to have the lock has it -/

def Has (s : State n C) : Owner n C → Prop
  | .worker w => (s.workers w).HasLock
  | .caller c => (s.callers c).HasLock
  | .destructor => s.destructor.HasLock

/-- The destructor has set the stop sign. -/
def Destructor.Stopped : Destructor → Prop
  | .stopped => True
  | .unlocked => True
  | .joining => True
  | .done => True
  | _ => False

/-- The lock has an owner that is about to give it up, and the pool is gone only when its
workers are. -/
structure Owned (s : State n C) : Prop where
  owner : ∀ o, s.tasksLock = some o → Has s o
  stopped : Destructor.Stopped s.destructor → s.stop = true
  done : s.destructor = .done → ∀ w, s.workers w = .exited

namespace Owned
variable {s s' : State n C}

theorem init (h : ThreadPool.State.Init s) : Owned s := by
  subst h
  constructor
  · intro o ho
    cases ho
  · intro hstop
    cases hstop
  · intro hdone
    cases hdone

/-- A thread that leaves the lock with whoever had it, takes it, or gives it back. -/
inductive Passes (l : Option (Owner n C)) (o : Owner n C) (had has : Prop) : Option (Owner n C) → Prop
  | keeps : (had → has) → Passes l o had has l
  | takes : has → Passes l o had has (some o)
  | gives : Passes l o had has none

theorem worker_step (h : Owned s) {x : Phase} (hw : s'.workers = Function.update s.workers w x)
    (hc : s'.callers = s.callers)
    (hd : s'.destructor = s.destructor) (hs : s'.stop = s.stop) (hx : s.workers w ≠ .exited)
    (hl : Passes s.tasksLock (.worker w) (s.workers w).HasLock x.HasLock s'.tasksLock) : Owned s' := by
  have hself : s'.workers w = x := by rw [hw, Function.update_self]
  refine ⟨fun o ho => ?_, by rw [hd, hs]; exact h.stopped, fun hdone => absurd (h.done (hd ▸ hdone) w) hx⟩
  generalize s'.tasksLock = l' at hl ho
  cases hl with
  | keeps hkeep =>
    have hhas := h.owner o ho
    cases o with
    | worker u =>
      by_cases huw : u = w
      · subst huw
        show (s'.workers u).HasLock
        rw [hself]
        exact hkeep hhas
      · show (s'.workers u).HasLock
        rw [hw, Function.update_of_ne huw]
        exact hhas
    | caller d =>
      show (s'.callers d).HasLock
      rw [hc]
      exact hhas
    | destructor =>
      show s'.destructor.HasLock
      rw [hd]
      exact hhas
  | takes hhas =>
    obtain rfl := Option.some.inj ho
    show (s'.workers w).HasLock
    rw [hself]
    exact hhas
  | gives => cases ho

theorem caller_step [DecidableEq C] (h : Owned s) {x : Submit} (hw : s'.workers = s.workers)
    (hc : s'.callers = Function.update s.callers c x)
    (hd : s'.destructor = s.destructor) (hs : s'.stop = s.stop)
    (hl : Passes s.tasksLock (.caller c) (s.callers c).HasLock x.HasLock s'.tasksLock) : Owned s' := by
  have hself : s'.callers c = x := by rw [hc, Function.update_self]
  refine ⟨fun o ho => ?_, by rw [hd, hs]; exact h.stopped, fun hdone => by rw [hw]; exact h.done (hd ▸ hdone)⟩
  generalize s'.tasksLock = l' at hl ho
  cases hl with
  | keeps hkeep =>
    have hhas := h.owner o ho
    cases o with
    | worker u =>
      show (s'.workers u).HasLock
      rw [hw]
      exact hhas
    | caller d =>
      by_cases hdc : d = c
      · subst hdc
        show (s'.callers d).HasLock
        rw [hself]
        exact hkeep hhas
      · show (s'.callers d).HasLock
        rw [hc, Function.update_of_ne hdc]
        exact hhas
    | destructor =>
      show s'.destructor.HasLock
      rw [hd]
      exact hhas
  | takes hhas =>
    obtain rfl := Option.some.inj ho
    show (s'.callers c).HasLock
    rw [hself]
    exact hhas
  | gives => cases ho

theorem destructor_step (h : Owned s) (hw : s'.workers = s.workers) (hc : s'.callers = s.callers)
    (hstop : Destructor.Stopped s'.destructor → s'.stop = true)
    (hdone : s'.destructor = .done → ∀ w, s.workers w = .exited)
    (hl : Passes s.tasksLock .destructor s.destructor.HasLock s'.destructor.HasLock s'.tasksLock) : Owned s' := by
  refine ⟨fun o ho => ?_, hstop, by rw [hw]; exact hdone⟩
  generalize s'.tasksLock = l' at hl ho
  cases hl with
  | keeps hkeep =>
    have hhas := h.owner o ho
    cases o with
    | worker u =>
      show (s'.workers u).HasLock
      rw [hw]
      exact hhas
    | caller d =>
      show (s'.callers d).HasLock
      rw [hc]
      exact hhas
    | destructor => exact hkeep hhas
  | takes hhas =>
    obtain rfl := Option.some.inj ho
    exact hhas
  | gives => cases ho

theorem step [DecidableEq C] (h : Owned s) (hl : Locks s) {a : Act n C} (hstep : ThreadPool.Step s a s') :
    Owned s' := by
  cases hstep with
  | lock hp _ => exact h.worker_step rfl rfl rfl rfl (by rw [hp]; nofun) (.takes trivial)
  | test hp _ => exact h.worker_step rfl rfl rfl rfl (by rw [hp]; nofun) (.keeps fun _ => trivial)
  | wait hp _ => exact h.worker_step rfl rfl rfl rfl (by rw [hp]; nofun) .gives
  | wake hp => exact h.worker_step rfl rfl rfl rfl (by rw [hp]; nofun) (.keeps fun hw => by rw [hp] at hw; exact hw)
  | leave hp _ => exact h.worker_step rfl rfl rfl rfl (by rw [hp]; nofun) .gives
  | fetch hp _ _ => exact h.worker_step rfl rfl rfl rfl (by rw [hp]; nofun) (.keeps fun _ => trivial)
  | fetchNothing hp ht heq =>
    rcases hl.ready _ hp with hstop | hne
    · exact absurd ⟨hstop, heq⟩ ht
    · exact absurd heq hne
  | unlock hp => exact h.worker_step rfl rfl rfl rfl (by rw [hp]; nofun) .gives
  | run hp => exact h.worker_step rfl rfl rfl rfl (by rw [hp]; nofun) (.keeps fun hw => by rw [hp] at hw; exact hw)
  | submit hp _ => exact h.caller_step rfl rfl rfl rfl (.keeps fun hc => by rw [hp] at hc; exact hc)
  | submitLock _ _ => exact h.caller_step rfl rfl rfl rfl (.takes trivial)
  | emplace _ => exact h.caller_step rfl rfl rfl rfl (.keeps fun _ => trivial)
  | notifyOne _ => exact h.caller_step rfl rfl rfl rfl (.keeps fun _ => trivial)
  | submitUnlock _ => exact h.caller_step rfl rfl rfl rfl .gives
  | destroy hp _ => exact h.destructor_step rfl rfl nofun nofun (.keeps fun hd => by rw [hp] at hd; exact hd)
  | destroyLock _ _ => exact h.destructor_step rfl rfl nofun nofun (.takes trivial)
  | setStop _ => exact h.destructor_step rfl rfl (fun _ => rfl) nofun (.keeps fun _ => trivial)
  | destroyUnlock hp => exact h.destructor_step rfl rfl (fun _ => h.stopped (by rw [hp]; trivial)) nofun .gives
  | notifyAll hp =>
    exact h.destructor_step rfl rfl (fun _ => h.stopped (by rw [hp]; trivial)) nofun
      (.keeps fun hd => by rw [hp] at hd; exact hd)
  | join hp hall =>
    exact h.destructor_step rfl rfl (fun _ => h.stopped (by rw [hp]; trivial)) (fun _ => hall)
      (.keeps fun hd => by rw [hp] at hd; exact hd)

end Owned

/-! ## Counting the threads -/

variable [Fintype C]

/-- The workers and the callers, each with a weight. -/
def total (a : Phase × Bool → Nat) (b : Submit → Nat) (p : Pool n C) : Nat :=
  (∑ w, a (p.at w)) + ∑ c, b (p.state.callers c)

theorem total_worker (a : Phase × Bool → Nat) (b : Submit → Nat) {x : Phase × Bool}
    (hat : p'.at = Function.update p.at w x)
    (hc : p'.state.callers = p.state.callers) : total a b p' + a (p.at w) = total a b p + a x := by
  have := sum_update a p.at w x
  rw [total, total, hat, hc]
  omega

theorem total_caller [DecidableEq C] (a : Phase × Bool → Nat) (b : Submit → Nat) {x : Submit} (hat : p'.at = p.at)
    (hc : p'.state.callers = Function.update p.state.callers c x) :
    total a b p' + b (p.state.callers c) = total a b p + b x := by
  have := sum_update b p.state.callers c x
  rw [total, total, hat, hc]
  omega

omit [Fintype C] in
theorem at_goto (p : Pool n C) (w : Fin n) (x : Phase) (woken : Bool) (s : State n C)
    (hs : s.workers = Function.update p.state.workers w x) :
    (Pool.mk s (Function.update p.woken w woken)).at = Function.update p.at w (x, woken) := by
  funext u
  by_cases hu : u = w
  · subst hu
    simp [Pool.at, hs]
  · simp [Pool.at, hs, hu]

omit [Fintype C] in
theorem at_plain (p : Pool n C) (w : Fin n) (x : Phase) (s : State n C)
    (hs : s.workers = Function.update p.state.workers w x) :
    (Pool.mk s p.woken).at = Function.update p.at w (x, p.woken w) := by
  have := at_goto p w x (p.woken w) s hs
  rwa [Function.update_eq_self] at this

/-- A worker that is notified, and the caller that did it. -/
theorem total_notify [DecidableEq C] (a : Phase × Bool → Nat) (b : Submit → Nat) (hq : p.state.callers c = .emplaced)
    (hs : Asleep p w) :
    total a b ⟨p.state.submit c .notified, Function.update p.woken w true⟩ + a (.waiting, false) + b .emplaced =
      total a b p + a (.waiting, true) + b .notified := by
  have hwait : p.state.workers w = .waiting := congrArg Prod.fst hs
  have hat := at_goto p w .waiting true p.state (by rw [← hwait, Function.update_eq_self])
  have hworker := total_worker a b hat rfl
  have hcaller : total a b ⟨p.state.submit c .notified, Function.update p.woken w true⟩ + b (p.state.callers c) =
    total a b ⟨p.state, Function.update p.woken w true⟩ + b .notified :=
    total_caller (p := ⟨p.state, Function.update p.woken w true⟩) a b rfl rfl
  rw [hs] at hworker
  rw [hq] at hcaller
  omega

/-! ## No wake-up is lost -/

/-- On its way to the test of the wait, or past it with no task yet. -/
def heads : Phase × Bool → Nat
  | (.locking, _) => 1
  | (.testing, _) => 1
  | (.ready, _) => 1
  | (.waiting, true) => 1
  | _ => 0

/-- About to notify. -/
def notifies : Submit → Nat
  | .emplaced => 1
  | _ => 0

structure Inv (p : Pool n C) : Prop where
  locks : Locks p.state
  tasks : Tasks p.state
  owned : Owned p.state
  woken : ∀ w, p.woken w = true → p.state.workers w = .waiting
  heard : ∀ w, Asleep p w → p.state.tasks.length ≤ total heads notifies p
  joined : p.state.destructor = .joining ∨ p.state.destructor = .done → ∀ w, ¬ Asleep p w

namespace Inv

theorem init (h : Init p) : Inv p := by
  obtain ⟨hs, hw⟩ := h
  have hasleep : ∀ w, ¬ Asleep p w := by
    intro w hsleep
    have := congrArg Prod.fst hsleep
    rw [Pool.at, hs] at this
    cases this
  refine ⟨.init hs, .init hs, .init hs, fun w h => ?_, fun w h => absurd h (hasleep w), fun _ => hasleep⟩
  rw [hw w] at h
  cases h

theorem not_woken (h : Inv p) {x : Phase} (hw : p.state.workers w = x) (hx : x ≠ .waiting) : p.woken w = false := by
  by_contra hne
  exact hx (hw.symm.trans (h.woken w (by simpa using hne)))

variable [DecidableEq C]

/-- A step of a worker that does not fall asleep. If it is no longer counted then it took a
task, or there is none. -/
theorem worker_step (h : Inv p) {x : Phase × Bool} (hp : ThreadPool.Step p.state (.worker w) p'.state)
    (hat : p'.at = Function.update p.at w x) (hc : p'.state.callers = p.state.callers)
    (hd : p'.state.destructor = p.state.destructor) (hx : x ≠ (.waiting, false)) (hx' : x.2 = true → x.1 = .waiting)
    (hle : p'.state.tasks = [] ∨ p'.state.tasks.length + heads (p.at w) ≤ p.state.tasks.length + heads x) : Inv p' := by
  have hasleep : ∀ u, Asleep p' u → Asleep p u := by
    intro u hu
    rw [Asleep, hat] at hu
    by_cases huw : u = w
    · subst huw
      rw [Function.update_self] at hu
      exact absurd hu hx
    · rwa [Function.update_of_ne huw] at hu
  refine ⟨h.locks.step hp, h.tasks.step hp, h.owned.step h.locks hp, fun u hu => ?_, fun u hu => ?_, fun hj u hu => ?_⟩
  · have hat' := congrFun hat u
    by_cases huw : u = w
    · subst huw
      rw [Function.update_self] at hat'
      rw [← hat'] at hx'
      exact hx' hu
    · rw [Function.update_of_ne huw, Pool.at, Pool.at, Prod.mk.injEq] at hat'
      rw [hat'.1]
      exact h.woken u (hat'.2 ▸ hu)
  · rcases hle with hnone | hle
    · rw [hnone]
      exact Nat.zero_le _
    · have hcount := total_worker heads notifies hat hc
      have := h.heard u (hasleep u hu)
      omega
  · rw [hd] at hj
    exact h.joined hj u (hasleep u hu)

/-- A step of a caller other than a notification. -/
theorem caller_step (h : Inv p) {x : Submit} (hp : ThreadPool.Step p.state (.caller c) p'.state) (hat : p'.at = p.at)
    (hw : p'.woken = p.woken) (hc : p'.state.callers = Function.update p.state.callers c x)
    (hd : p'.state.destructor = p.state.destructor)
    (hle : p'.state.tasks.length + notifies (p.state.callers c) ≤ p.state.tasks.length + notifies x) : Inv p' := by
  refine ⟨h.locks.step hp, h.tasks.step hp, h.owned.step h.locks hp, fun u hu => ?_, fun u hu => ?_, fun hj u hu => ?_⟩
  · rw [hw] at hu
    have hfst : p'.state.workers u = p.state.workers u := congrArg Prod.fst (congrFun hat u)
    rw [hfst]
    exact h.woken u hu
  · rw [Asleep, hat] at hu
    have hcount := total_caller heads notifies hat hc
    have := h.heard u hu
    omega
  · rw [hd] at hj
    rw [Asleep, hat] at hu
    exact h.joined hj u hu

/-- When nobody is asleep there is nothing to be heard. -/
theorem awake_step (h : Inv p) {a : Act n C} (hp : ThreadPool.Step p.state a p'.state)
    (hw : ∀ w, p'.woken w = true → p'.state.workers w = .waiting) (hawake : ∀ w, ¬ Asleep p' w) : Inv p' :=
  ⟨h.locks.step hp, h.tasks.step hp, h.owned.step h.locks hp, hw, fun w hs => absurd hs (hawake w), fun _ => hawake⟩

omit [DecidableEq C] in
/-- What a worker with a plain step was like, and is. -/
theorem at_of (h : Inv p) {q : Phase} (hq : p.state.workers w = q) (hne : q ≠ .waiting) : p.at w = (q, false) :=
  Prod.ext hq (h.not_woken hq hne)

theorem plain_worker (h : Inv p) {q x : Phase} {s : State n C} (hp : ThreadPool.Step p.state (.worker w) s)
    (hq : p.state.workers w = q) (hne : q ≠ .waiting) (hw : s.workers = Function.update p.state.workers w x)
    (hc : s.callers = p.state.callers) (hd : s.destructor = p.state.destructor) (hx : x ≠ .waiting)
    (hle : s.tasks = [] ∨ s.tasks.length + heads (q, false) ≤ p.state.tasks.length + heads (x, false)) :
    Inv { p with state := s } := by
  have hat := at_plain p w x s hw
  rw [h.not_woken hq hne] at hat
  apply h.worker_step (x := (x, false)) hp hat hc hd (fun heq => hx (congrArg Prod.fst heq)) (fun hf => by cases hf)
  rw [h.at_of hq hne]
  exact hle

theorem plain_caller (h : Inv p) {q x : Submit} {s : State n C} (hp : ThreadPool.Step p.state (.caller c) s)
    (hq : p.state.callers c = q) (hw : s.workers = p.state.workers)
    (hc : s.callers = Function.update p.state.callers c x)
    (hd : s.destructor = p.state.destructor)
    (hle : s.tasks.length + notifies q ≤ p.state.tasks.length + notifies x) : Inv { p with state := s } := by
  refine h.caller_step (x := x) hp ?_ rfl hc hd ?_
  · funext u
    simp [Pool.at, hw]
  · rw [hq]
    exact hle

theorem plain_destructor (h : Inv p) {s : State n C} (hp : ThreadPool.Step p.state .destructor s)
    (hw : s.workers = p.state.workers) (hc : s.callers = p.state.callers) (ht : s.tasks = p.state.tasks)
    (hj : s.destructor = .joining ∨ s.destructor = .done → p.state.destructor = .joining) :
    Inv { p with state := s } := by
  have hat : (Pool.mk s p.woken).at = p.at := by
    funext u
    simp [Pool.at, hw]
  refine ⟨h.locks.step hp, h.tasks.step hp, h.owned.step h.locks hp, fun u hu => ?_, fun u hu => ?_, fun hd u hu => ?_⟩
  · show s.workers u = .waiting
    rw [hw]
    exact h.woken u hu
  · have htotal : total heads notifies (Pool.mk s p.woken) = total heads notifies p := by rw [total, total, hat, hc]
    rw [Asleep, hat] at hu
    show s.tasks.length ≤ _
    rw [htotal, ht]
    exact h.heard u hu
  · rw [Asleep, hat] at hu
    exact h.joined (.inl (hj hd)) u hu

/-- A worker falls asleep with the lock, when there is no task and no stop sign. -/
theorem wait (h : Inv p) {s : State n C} (hs : s = (p.state.goto w .waiting).withLock none)
    (hq : p.state.workers w = .testing)
    (ht : ¬ (p.state.stop = true ∨ p.state.tasks ≠ [])) : Inv { p with state := s } := by
  have hp : ThreadPool.Step p.state (.worker w) s := hs ▸ .wait hq ht
  rw [not_or, not_not] at ht
  subst hs
  refine ⟨h.locks.step hp, h.tasks.step hp, h.owned.step h.locks hp, fun u hu => ?_, fun u _ => ?_, fun hd => ?_⟩
  · by_cases huw : u = w
    · subst huw
      simp [goto, withLock]
    · simpa [goto, withLock, huw] using h.woken u hu
  · show p.state.tasks.length ≤ _
    rw [ht.2]
    exact Nat.zero_le _
  · refine absurd (h.owned.stopped ?_) ht.1
    have hd' : p.state.destructor = .joining ∨ p.state.destructor = .done := hd
    rcases hd' with hd' | hd' <;> rw [hd'] <;> trivial

/-- The caller is no longer counted, and the worker it wakes is. -/
theorem notifyOne (h : Inv p) (hq : p.state.callers c = .emplaced) (hs : Asleep p w) :
    Inv ⟨p.state.submit c .notified, Function.update p.woken w true⟩ := by
  have hp : ThreadPool.Step p.state (.caller c) (p.state.submit c .notified) := .notifyOne hq
  have hwait : p.state.workers w = .waiting := congrArg Prod.fst hs
  have hat := at_goto p w .waiting true (p.state.submit c .notified) (by rw [← hwait, Function.update_eq_self]; rfl)
  have hasleep : ∀ u, Asleep ⟨p.state.submit c .notified, Function.update p.woken w true⟩ u → Asleep p u := by
    intro u hu
    rw [Asleep, hat] at hu
    by_cases huw : u = w
    · subst huw
      exact hs
    · rwa [Function.update_of_ne huw] at hu
  refine ⟨h.locks.step hp, h.tasks.step hp, h.owned.step h.locks hp, fun u hu => ?_, fun u hu => ?_, fun hd u hu => ?_⟩
  · by_cases huw : u = w
    · exact huw ▸ hwait
    · exact h.woken u (by simpa [huw] using hu)
  · -- first the worker, then the caller
    have hcount := total_notify heads notifies hq hs
    have := h.heard u (hasleep u hu)
    simp only [heads, notifies] at hcount
    show p.state.tasks.length ≤ _
    omega
  · exact h.joined hd u (hasleep u hu)

theorem step (h : Inv p) {e : Event n C} (hstep : Step p e p') : Inv p' := by
  cases hstep with
  | @plain a s hplain hp =>
    cases hp with
    | lock hq _ => exact h.plain_worker (.lock hq ‹_›) hq (by decide) rfl rfl rfl (by decide) (.inr le_rfl)
    | test hq _ => exact h.plain_worker (.test hq ‹_›) hq (by decide) rfl rfl rfl (by decide) (.inr le_rfl)
    | wait hq ht => exact h.wait rfl hq ht
    | wake hq => exact absurd hq hplain
    | leave hq ht => exact h.plain_worker (.leave hq ht) hq (by decide) rfl rfl rfl (by decide) (.inl ht.2)
    | fetch hq ht heq =>
      refine h.plain_worker (.fetch hq ht heq) hq (by decide) rfl rfl rfl (by simp) (.inr ?_)
      simp [heq, heads]
    | fetchNothing hq ht heq =>
      rcases h.locks.ready _ hq with hstop | hne
      · exact absurd ⟨hstop, heq⟩ ht
      · exact absurd heq hne
    | unlock hq => exact h.plain_worker (.unlock hq) hq (by simp) rfl rfl rfl (by simp) (.inr le_rfl)
    | run hq => exact h.plain_worker (.run hq) hq (by simp) rfl rfl rfl (by simp) (.inr (Nat.le_succ _))
    | submit hq ha => exact h.plain_caller (.submit hq ha) hq rfl rfl rfl le_rfl
    | submitLock hq hl => exact h.plain_caller (.submitLock hq hl) hq rfl rfl rfl le_rfl
    | emplace hq =>
      apply h.plain_caller (.emplace hq) hq rfl rfl rfl
      simp [notifies]
    | notifyOne hq => exact absurd hq hplain
    | submitUnlock hq => exact h.plain_caller (.submitUnlock hq) hq rfl rfl rfl le_rfl
    | destroy hq hall => exact h.plain_destructor (.destroy hq hall) rfl rfl rfl (by simp)
    | destroyLock hq hl => exact h.plain_destructor (.destroyLock hq hl) rfl rfl rfl (by simp)
    | setStop hq => exact h.plain_destructor (.setStop hq) rfl rfl rfl (by simp [hq])
    | destroyUnlock hq => exact h.plain_destructor (.destroyUnlock hq) rfl rfl rfl (by simp)
    | notifyAll hq => exact absurd hq hplain
    | join hq hall => exact h.plain_destructor (.join hq hall) rfl rfl rfl fun _ => hq
  | @wake w hq hw =>
    have hold : p.at w = (.waiting, true) := Prod.ext hq hw
    refine h.worker_step (x := (.locking, false)) (.wake hq) (at_goto p w .locking false _ rfl)
      rfl rfl (by decide) (by decide) (.inr ?_)
    rw [hold]
    exact le_rfl
  | @spurious w hs =>
    have hq : p.state.workers w = .waiting := congrArg Prod.fst hs
    have hw : p.woken w = false := congrArg Prod.snd hs
    have hat := at_plain p w .locking (p.state.goto w .locking) rfl
    rw [hw] at hat
    refine h.worker_step (x := (.locking, false)) (.wake hq) hat rfl rfl (by decide) (by decide) (.inr ?_)
    rw [hs]
    exact Nat.le_succ _
  | @notifyOne c w hq hs => exact h.notifyOne hq hs
  | @notifyNone c hq hnone =>
    refine h.awake_step (.notifyOne hq) h.woken fun u hu => hnone u hu
  | notifyAll hq =>
    refine h.awake_step (.notifyAll hq) (fun u hu => by simpa using hu) fun u hu => ?_
    simp only [Asleep, Pool.at, Prod.mk.injEq, decide_eq_false_iff_not] at hu
    exact hu.2 hu.1

end Inv

theorem reach_inv [DecidableEq C] (h : Reach Init Step p) : Inv p := h.inv (fun _ => .init) fun _ _ _ h => h.step

/-- In no run does a worker sleep while there are more tasks than workers and callers on
their way to them. So with nobody in `submit`, and nobody awake, there is none; and none
sleeps once the destructor waits for them. -/
theorem no_lost_wakeup [DecidableEq C] (h : Reach Init Step p) (hs : Asleep p w) :
    p.state.tasks.length ≤ total heads notifies p ∧ p.state.destructor ≠ .joining ∧ p.state.destructor ≠ .done := by
  have hi := reach_inv h
  exact ⟨hi.heard w hs, fun hd => hi.joined (.inl hd) w hs, fun hd => hi.joined (.inr hd) w hs⟩

/-! ## The pool comes to rest -/

/-- A new call of `submit`, or of the destructor. -/
def Begins (s : State n C) : Act n C → Prop
  | .worker _ => False
  | .caller c => s.callers c = .idle
  | .destructor => s.destructor = .alive

/-- Nobody begins anything. -/
def GoesOn (p : Pool n C) : Event n C → Prop
  | .act a => ¬ Begins p.state a
  | .spurious _ => True

def Event.isSpurious : Event n C → Bool
  | act _ => false
  | spurious _ => true

/-- Steps that a worker has before it, at most, until it sleeps. -/
def workerWork : Phase × Bool → Nat
  | (.fetched _, _) => 5
  | (.running _, _) => 4
  | (.waiting, true) => 4
  | (.locking, _) => 3
  | (.testing, _) => 2
  | (.ready, _) => 1
  | _ => 0

/-- A caller's own, with those of its task and of the worker it wakes. -/
def callerWork : Submit → Nat
  | .idle => 0
  | .locking => 13
  | .locked => 12
  | .emplaced => 6
  | .notified => 1

def destructorWork (n : Nat) : Destructor → Nat
  | .alive => 4 * n + 6
  | .locking => 4 * n + 5
  | .locked => 4 * n + 4
  | .stopped => 4 * n + 3
  | .unlocked => 4 * n + 2
  | .joining => 1
  | .done => 0

def work (p : Pool n C) : Nat :=
  5 * p.state.tasks.length + total workerWork callerWork p + destructorWork n p.state.destructor

section Work
variable {s : State n C}

theorem work_worker (hi : Inv p) {q x : Phase} (hq : p.state.workers w = q) (hne : q ≠ .waiting)
    (hw : s.workers = Function.update p.state.workers w x) (hc : s.callers = p.state.callers)
    (hd : s.destructor = p.state.destructor)
    (hlt : 5 * s.tasks.length + workerWork (x, false) < 5 * p.state.tasks.length + workerWork (q, false)) :
    work { p with state := s } < work p := by
  have hat := at_plain p w x s hw
  rw [hi.not_woken hq hne] at hat
  have htotal := total_worker workerWork callerWork hat hc
  rw [hi.at_of hq hne] at htotal
  show 5 * s.tasks.length + _ + destructorWork n s.destructor < work p
  rw [hd, work]
  omega

theorem work_caller [DecidableEq C] {q x : Submit} (hq : p.state.callers c = q) (hw : s.workers = p.state.workers)
    (hc : s.callers = Function.update p.state.callers c x) (hd : s.destructor = p.state.destructor)
    (hlt : 5 * s.tasks.length + callerWork x < 5 * p.state.tasks.length + callerWork q) :
    work { p with state := s } < work p := by
  have hat : (Pool.mk s p.woken).at = p.at := by
    funext u
    simp [Pool.at, hw]
  have htotal := total_caller workerWork callerWork hat hc
  rw [hq] at htotal
  show 5 * s.tasks.length + _ + destructorWork n s.destructor < work p
  rw [hd, work]
  omega

theorem work_destructor (hw : s.workers = p.state.workers) (hc : s.callers = p.state.callers)
    (ht : s.tasks = p.state.tasks) (hlt : destructorWork n s.destructor < destructorWork n p.state.destructor) :
    work { p with state := s } < work p := by
  have hat : (Pool.mk s p.woken).at = p.at := by
    funext u
    simp [Pool.at, hw]
  show 5 * s.tasks.length + total workerWork callerWork (Pool.mk s p.woken) + destructorWork n s.destructor < work p
  rw [total, hat, hc, ht, work, total]
  omega

/-- The workers that are woken all together. -/
theorem work_notifyAll (hq : p.state.destructor = .unlocked) :
    work ⟨{ p.state with destructor := .joining }, fun w => decide (p.state.workers w = .waiting)⟩ < work p := by
  have hone : ∀ w, workerWork (p.state.workers w, decide (p.state.workers w = .waiting)) ≤ workerWork (p.at w) + 4 := by
    intro w
    rw [Pool.at]
    cases p.state.workers w <;> simp [workerWork]
  have hsum := Finset.sum_le_sum fun w (_ : w ∈ Finset.univ) => hone w
  rw [Finset.sum_add_distrib, Finset.sum_const_nat (m := 4) fun _ _ => rfl, Finset.card_univ, Fintype.card_fin] at hsum
  show 5 * p.state.tasks.length + ((∑ w, workerWork (p.state.workers w, decide (p.state.workers w = .waiting))) +
    ∑ c, callerWork (p.state.callers c)) + 1 < work p
  rw [work, total, hq, destructorWork]
  omega

variable [DecidableEq C]

/-- Every step of what has begun leaves less to do. -/
theorem work_lt (hi : Inv p) {e : Event n C} (hgo : GoesOn p e) (hstep : Step p e p') (he : e.isSpurious = false) :
    work p' < work p := by
  cases hstep with
  -- the weights fall by one, or by a task's five against what it costs to run
  | @plain a s hplain hp =>
    cases hp with
    | lock hq _ => exact work_worker hi hq (by decide) rfl rfl rfl (Nat.lt_succ_self _)
    | test hq _ => exact work_worker hi hq (by decide) rfl rfl rfl (Nat.lt_succ_self _)
    | wait hq _ => exact work_worker hi hq (by decide) rfl rfl rfl (Nat.lt_add_of_pos_right (by decide))
    | wake hq => exact absurd hq hplain
    | leave hq _ => exact work_worker hi hq (by decide) rfl rfl rfl (Nat.lt_succ_self _)
    | fetch hq _ heq =>
      refine work_worker hi hq (by decide) rfl rfl rfl ?_
      simp only [heq, List.length_cons, workerWork]
      omega
    | fetchNothing hq _ _ => exact work_worker hi hq (by decide) rfl rfl rfl (Nat.lt_succ_self _)
    | unlock hq => exact work_worker hi hq (by simp) rfl rfl rfl (Nat.lt_succ_self _)
    | run hq => exact work_worker hi hq (by simp) rfl rfl rfl (Nat.lt_succ_self _)
    | submit hq _ => exact absurd hq hgo
    | submitLock hq _ => exact work_caller hq rfl rfl rfl (Nat.lt_succ_self _)
    | emplace hq =>
      refine work_caller hq rfl rfl rfl ?_
      simp only [List.length_append, List.length_singleton, callerWork]
      omega
    | notifyOne hq => exact absurd hq hplain
    | submitUnlock hq => exact work_caller hq rfl rfl rfl (Nat.lt_succ_self _)
    | destroy hq _ => exact absurd hq hgo
    | destroyLock hq _ => exact work_destructor rfl rfl rfl (by rw [hq]; exact Nat.lt_succ_self _)
    | setStop hq => exact work_destructor rfl rfl rfl (by rw [hq]; exact Nat.lt_succ_self _)
    | destroyUnlock hq => exact work_destructor rfl rfl rfl (by rw [hq]; exact Nat.lt_succ_self _)
    | notifyAll hq => exact absurd hq hplain
    | join hq _ => exact work_destructor rfl rfl rfl (by rw [hq]; exact Nat.zero_lt_one)
  | @wake w hq hw =>
    have hold : p.at w = (.waiting, true) := Prod.ext hq hw
    have htotal := total_worker workerWork callerWork (at_goto p w .locking false (p.state.goto w .locking) rfl) rfl
    rw [hold] at htotal
    simp only [workerWork] at htotal
    show 5 * p.state.tasks.length + _ + destructorWork n p.state.destructor < work p
    rw [work]
    omega
  | spurious _ => cases he
  | @notifyOne c w hq hs =>
    have htotal := total_notify workerWork callerWork hq hs
    simp only [workerWork, callerWork] at htotal
    show 5 * p.state.tasks.length + _ + destructorWork n p.state.destructor < work p
    rw [work]
    omega
  | @notifyNone c hq _ => exact work_caller hq rfl rfl rfl (Nat.add_lt_add_left (by decide) _)
  | notifyAll hq => exact work_notifyAll hq

/-- A worker that wakes for no reason looks for a task and goes back to sleep. -/
theorem work_spurious {e : Event n C} (hstep : Step p e p') (he : e.isSpurious = true) : work p' ≤ work p + 3 := by
  cases hstep with
  | @spurious w hs =>
    have hat := at_plain p w .locking (p.state.goto w .locking) rfl
    rw [show p.woken w = false from congrArg Prod.snd hs] at hat
    have htotal := total_worker workerWork callerWork hat rfl
    rw [show p.at w = _ from hs] at htotal
    simp only [workerWork] at htotal
    show 5 * p.state.tasks.length + _ + destructorWork n p.state.destructor ≤ work p + 3
    rw [work]
    omega
  | _ => cases he

end Work

variable [DecidableEq C]

/-- Nothing is left to do. -/
structure AtRest (p : Pool n C) : Prop where
  callers : ∀ c, p.state.callers c = .idle
  tasks : p.state.tasks = []
  ran : p.state.ran.Perm (List.range p.state.submitted)
  workers : (p.state.destructor = .alive ∧ ∀ w, Asleep p w) ∨
    (p.state.destructor = .done ∧ ∀ w, p.state.workers w = .exited)

/-- Nobody can go on. -/
def Halted (p : Pool n C) : Prop := ∀ a p', Step p (.act a) p' → Begins p.state a

namespace Halted

/-- Whoever has the lock can go on. -/
theorem lock_free (hh : Halted p) (hi : Inv p) : p.state.tasksLock = none := by
  rcases hl : p.state.tasksLock with _ | o
  · rfl
  exfalso
  have hhas := hi.owned.owner o hl
  -- whoever holds the lock can go on
  cases o with
  | worker w =>
    have hhas : (p.state.workers w).HasLock := hhas
    have hgo : ∀ {s}, ThreadPool.Step p.state (.worker w) s → p.state.workers w ≠ .waiting → False :=
      fun hs hne => hh _ _ (.plain (show Plain p.state (.worker w) from hne) hs)
    cases hq : p.state.workers w with
    | testing =>
      by_cases ht : p.state.stop = true ∨ p.state.tasks ≠ []
      · exact hgo (.test hq ht) (by simp [hq])
      · exact hgo (.wait hq ht) (by simp [hq])
    | ready =>
      by_cases ht : p.state.stop = true ∧ p.state.tasks = []
      · exact hgo (.leave hq ht) (by simp [hq])
      · cases htasks : p.state.tasks with
        | nil => exact hgo (.fetchNothing hq ht htasks) (by simp [hq])
        | cons task tasks => exact hgo (.fetch hq ht htasks) (by simp [hq])
    | fetched task => exact hgo (.unlock hq) (by simp [hq])
    | _ =>
      rw [hq] at hhas
      exact hhas
  | caller c =>
    have hhas : (p.state.callers c).HasLock := hhas
    cases hq : p.state.callers c with
    | locked =>
      have hidle : p.state.callers c = .idle := hh _ _ (.plain (by simp [Plain, hq]) (.emplace hq))
      simp [hq] at hidle
    | emplaced =>
      have hidle : p.state.callers c = .idle := by
        by_cases hs : ∃ w, Asleep p w
        · obtain ⟨w, hw⟩ := hs
          exact hh _ _ (.notifyOne hq hw)
        · exact hh _ _ (.notifyNone hq fun w hw => hs ⟨w, hw⟩)
      simp [hq] at hidle
    | notified =>
      have hidle : p.state.callers c = .idle := hh _ _ (.plain (by simp [Plain, hq]) (.submitUnlock hq))
      simp [hq] at hidle
    | _ =>
      rw [hq] at hhas
      exact hhas
  | destructor =>
    have hhas : p.state.destructor.HasLock := hhas
    cases hq : p.state.destructor with
    | locked =>
      have halive : p.state.destructor = .alive := hh _ _ (.plain (by simp [Plain, hq]) (.setStop hq))
      simp [hq] at halive
    | stopped =>
      have halive : p.state.destructor = .alive := hh _ _ (.plain (by simp [Plain, hq]) (.destroyUnlock hq))
      simp [hq] at halive
    | _ =>
      rw [hq] at hhas
      exact hhas

theorem worker (hh : Halted p) (hi : Inv p) (w : Fin n) : Asleep p w ∨ p.state.workers w = .exited := by
  have hfree := hh.lock_free hi
  have hno : ¬ (p.state.workers w).HasLock := fun hhas => by simp [hi.locks.worker w hhas] at hfree
  cases hq : p.state.workers w with
  | locking => exact (hh _ _ (.plain (by simp [Plain, hq]) (.lock hq hfree))).elim
  | waiting =>
    cases hw : p.woken w with
    | true => exact (hh _ _ (.wake hq hw)).elim
    | false => exact .inl (Prod.ext hq hw)
  | running task => exact (hh _ _ (.plain (by simp [Plain, hq]) (.run hq))).elim
  | exited => exact .inr rfl
  | undefined => exact absurd hq (hi.locks.defined w)
  | _ =>
    rw [hq] at hno
    exact absurd trivial hno

theorem caller (hh : Halted p) (hi : Inv p) (c : C) : p.state.callers c = .idle := by
  have hfree := hh.lock_free hi
  have hno : ¬ (p.state.callers c).HasLock := fun hhas => by simp [hi.locks.caller c hhas] at hfree
  cases hq : p.state.callers c with
  | idle => rfl
  | locking =>
    have hidle : p.state.callers c = .idle := hh _ _ (.plain (by simp [Plain, hq]) (.submitLock hq hfree))
    exact hq.symm.trans hidle
  | _ =>
    rw [hq] at hno
    exact absurd trivial hno

theorem destructor (hh : Halted p) (hi : Inv p) : p.state.destructor = .alive ∨ p.state.destructor = .done := by
  have hfree := hh.lock_free hi
  have hno : ¬ p.state.destructor.HasLock := fun hhas => by simp [hi.locks.destructor hhas] at hfree
  cases hq : p.state.destructor with
  | alive => exact .inl rfl
  | done => exact .inr rfl
  | locking => exact .inl (hq.symm.trans (hh _ _ (.plain (by simp [Plain, hq]) (.destroyLock hq hfree))))
  | unlocked => exact .inl (hq.symm.trans (hh _ _ (.notifyAll hq)))
  | joining =>
    -- nobody sleeps any more, so all have left
    have hall : ∀ w, p.state.workers w = .exited := fun w => (hh.worker hi w).resolve_left (hi.joined (.inl hq) w)
    exact .inl (hq.symm.trans (hh _ _ (.plain (by simp [Plain, hq]) (.join hq hall))))
  | _ =>
    rw [hq] at hno
    exact absurd trivial hno

omit [Fintype C] in
/-- Workers that sleep wait for a call. -/
theorem of_asleep (hw : ∀ w, Asleep p w) (hc : ∀ c, p.state.callers c = .idle) (hd : p.state.destructor = .alive) :
    Halted p := by
  intro a p' hstep
  cases hstep with
  | plain hplain _ =>
    cases a with
    | worker w => exact absurd (congrArg Prod.fst (hw w)) hplain
    | caller c => exact hc c
    | destructor => exact hd
  | @wake w _ hwoken =>
    rw [show p.woken w = false from congrArg Prod.snd (hw w)] at hwoken
    cases hwoken
  | notifyOne _ _ => exact hc _
  | notifyNone _ _ => exact hc _
  | notifyAll _ => exact hd

/-- With a worker at least, nothing is left to do. -/
theorem atRest (hh : Halted p) (hi : Inv p) (hn : 0 < n) : AtRest p := by
  have hcallers := hh.caller hi
  have hworkers : (p.state.destructor = .alive ∧ ∀ w, Asleep p w) ∨
      (p.state.destructor = .done ∧ ∀ w, p.state.workers w = .exited) := by
    rcases hh.destructor hi with hd | hd
    · refine .inl ⟨hd, fun w => (hh.worker hi w).resolve_right fun hexit => ?_⟩
      have hstop := (hi.locks.exited w hexit).1
      rw [hi.locks.alive hd] at hstop
      cases hstop
    · exact .inr ⟨hd, hi.owned.done hd⟩
  -- a worker asleep hears of every task, and one that has left saw none
  have htasks : p.state.tasks = [] := by
    rcases hworkers with ⟨-, hall⟩ | ⟨-, hall⟩
    · have hzero : total heads notifies p = 0 := by
        have hw : ∀ w, heads (p.at w) = 0 := fun w => by rw [show p.at w = _ from hall w]; rfl
        have hc : ∀ c, notifies (p.state.callers c) = 0 := fun c => by rw [hcallers c]; rfl
        simp [total, hw, hc]
      have := hi.heard ⟨0, hn⟩ (hall _)
      exact List.length_eq_zero_iff.1 (by omega)
    · exact (hi.locks.exited ⟨0, hn⟩ (hall _)).2
  have hnone : ∀ w, (p.state.workers w).task = none := by
    intro w
    rcases hh.worker hi w with hw | hw
    · rw [show p.state.workers w = .waiting from congrArg Prod.fst hw]
      rfl
    · rw [hw]
      rfl
  refine ⟨hcallers, htasks, ?_, hworkers⟩
  have horder := hi.tasks.order
  rw [htasks, List.append_nil] at horder
  refine (List.perm_ext_iff_of_nodup hi.tasks.ran_nodup List.nodup_range).2 fun t => ?_
  rw [← horder]
  refine ⟨hi.tasks.ran t, fun ht => (hi.tasks.taken t ht).resolve_right ?_⟩
  rintro ⟨w, hw⟩
  rw [hnone w] at hw
  cases hw

end Halted

/-- From any state of any run: once nothing new begins, there are no more steps than
`work`, and four for each worker that wakes for no reason; and when nobody can go on,
every task has been run, and the workers sleep or have left. -/
theorem comes_to_rest (hn : 0 < n) (h : Reach Init Step p) {l : List (Event n C × Pool n C)}
    (hp : Path (Restrict Step GoesOn) p l p') :
    l.length ≤ work p + 4 * (l.countP fun e => e.1.isSpurious) ∧ (Halted p' → AtRest p') := by
  obtain ⟨hi, hle⟩ := hp.length_le (I := Inv) (fun _ _ _ h hs => h.step hs.2) (fun _ _ _ h hs => work_lt h hs.1 hs.2)
    (fun _ _ _ _ hs => work_spurious hs.2) (reach_inv h)
  exact ⟨by omega, fun hend => hend.atRest hi hn⟩

/-- The only worker is asleep, and a task has just come; from there the pool comes to rest. -/
theorem one_task : ∃ p : Pool 1 Unit, Reach Init Step p ∧ Asleep p 0 ∧ p.state.callers () = .emplaced ∧
    p.state.tasks = [0] ∧
    ∃ p' l, Path (Restrict Step GoesOn) p l p' ∧ l.length = 10 ∧ (l.countP fun e => e.1.isSpurious) = 1 ∧
      p'.state.ran = [0] ∧ Asleep p' 0 ∧ p'.state.callers () = .idle ∧ p'.state.destructor = .alive := by
  have h0 : Reach (Init (n := 1) (C := Unit)) Step ⟨_, fun _ => false⟩ := .start ⟨rfl, fun _ => rfl⟩
  have h1 := h0.next (.plain (a := .worker 0) (by simp [Plain]) (.lock rfl rfl))
  have h2 := h1.next (.plain (a := .worker 0) (by simp [Plain, goto, withLock]) (.wait rfl (by simp [goto, withLock])))
  have h3 := h2.next (.plain (a := .caller ()) (by simp [Plain, goto, withLock]) (.submit rfl rfl))
  have h4 := h3.next (.plain (a := .caller ()) (by simp [Plain, State.submit]) (.submitLock rfl rfl))
  have h5 := h4.next (.plain (a := .caller ()) (by simp [Plain, State.submit, withLock]) (.emplace rfl))
  have from_here : ∀ {p : Pool 1 Unit}, Reach Init Step p → Path (Restrict Step GoesOn) p [] p := fun _ => .nil
  have g1 := (from_here h5).snoc (e := Event.spurious 0) ⟨trivial, .spurious rfl⟩
  have g2 := g1.snoc (e := Event.act (.caller ())) ⟨by simp [GoesOn, Begins, State.submit, goto, withLock],
    .notifyNone rfl (by simp [Asleep, Pool.at, goto])⟩
  have g3 := g2.snoc (e := Event.act (.caller ())) ⟨by simp [GoesOn, Begins, State.submit, goto, withLock],
    .plain (by simp [Plain, State.submit]) (.submitUnlock rfl)⟩
  have g4 := g3.snoc (e := Event.act (.worker 0)) ⟨id,
    .plain (by simp [Plain, State.submit, goto, withLock]) (.lock rfl rfl)⟩
  have g5 := g4.snoc (e := Event.act (.worker 0)) ⟨id, .plain (by simp [Plain, goto, withLock])
    (.test rfl (by simp [State.submit, goto, withLock]))⟩
  have g6 := g5.snoc (e := Event.act (.worker 0)) ⟨id, .plain (by simp [Plain, goto])
    (.fetch rfl (by simp [State.submit, goto, withLock]) rfl)⟩
  have g7 := g6.snoc (e := Event.act (.worker 0)) ⟨id, .plain (by simp [Plain, goto]) (.unlock rfl)⟩
  have g8 := g7.snoc (e := Event.act (.worker 0)) ⟨id, .plain (by simp [Plain, goto, withLock]) (.run rfl)⟩
  have g9 := g8.snoc (e := Event.act (.worker 0)) ⟨id, .plain (by simp [Plain, goto]) (.lock rfl rfl)⟩
  have g10 := g9.snoc (e := Event.act (.worker 0)) ⟨id, .plain (by simp [Plain, goto, withLock])
    (.wait rfl (by simp [State.submit, goto, withLock]))⟩
  exact ⟨_, h5, rfl, rfl, rfl, _, _, g10, rfl, rfl, rfl, rfl, rfl, rfl⟩

theorem no_lost_wakeup_one : ∃ p : Pool 1 Unit, Asleep p 0 ∧ p.state.tasks.length = 1 ∧ 1 ≤ total heads notifies p := by
  obtain ⟨p, h, hs, -, htasks, -⟩ := one_task
  have hheard := (no_lost_wakeup h hs).1
  rw [htasks] at hheard
  exact ⟨p, hs, by rw [htasks]; rfl, hheard⟩

/-- The worker wakes for no reason, and is not notified any more; it finds the task, runs it
and sleeps again. -/
theorem comes_to_rest_one : ∃ (p p' : Pool 1 Unit) (l : List (Event 1 Unit × Pool 1 Unit)),
    Path (Restrict Step GoesOn) p l p' ∧ l.length = 10 ∧
    (l.countP fun e => e.1.isSpurious) = 1 ∧ 10 ≤ work p + 4 * 1 ∧ p'.state.ran = [0] ∧ AtRest p' := by
  obtain ⟨p, h, -, -, -, p', l, hp, hlen, hspurious, hran, hs, hc, hd⟩ := one_task
  have hsleep : ∀ w, Asleep p' w := fun w => by rwa [Subsingleton.elim w 0]
  obtain ⟨hle, hrest⟩ := comes_to_rest Nat.one_pos h hp
  rw [hlen, hspurious] at hle
  exact ⟨p, p', l, hp, hlen, hspurious, hle, hran, hrest (.of_asleep hsleep (fun c => hc) hd)⟩

end

end MisakiDB.ThreadPool.WakeUps
