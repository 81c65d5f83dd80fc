import MisakiDB.Lib.Runs
import Mathlib.Data.List.Perm.Basic
import Mathlib.Data.List.Range
/-!
# `ThreadPool`

The threads are the workers, any number of callers of `submit`, and the one that
destroys the pool. A step is what one thread does between two points where another
could get in. A task is its number in the order of submission.

A wake-up may come at any time, as a condition variable allows, so the notifications
have no effect of their own.
-/

namespace MisakiDB.ThreadPool

open Runs

/-- Where a worker stands in its loop. -/
inductive Phase
  /-- Before the lock: at the top of the loop, or woken. -/
  | locking
  /-- With the lock, before the test of the wait's condition. -/
  | testing
  | waiting
  /-- The wait has returned, with the lock. -/
  | ready
  /-- With the lock and a task. -/
  | fetched (task : Nat)
  | running (task : Nat)
  | exited
  /-- It took the front of an empty queue. -/
  | undefined
  deriving DecidableEq

inductive Submit
  | idle
  | locking
  | locked
  | emplaced
  | notified
  deriving DecidableEq

inductive Destructor
  | alive
  | locking
  | locked
  | stopped
  | unlocked
  | joining
  | done
  deriving DecidableEq

inductive Owner (n : Nat) (C : Type)
  | worker (w : Fin n)
  | caller (c : C)
  | destructor

structure State (n : Nat) (C : Type) where
  workers : Fin n → Phase
  callers : C → Submit
  destructor : Destructor
  tasksLock : Option (Owner n C)
  tasks : List Nat
  stop : Bool
  /-- How many tasks have been submitted. -/
  submitted : Nat
  dequeued : List Nat
  ran : List Nat

namespace State
variable {n : Nat} {C : Type} [DecidableEq C]

def goto (s : State n C) (w : Fin n) (p : Phase) : State n C := { s with workers := Function.update s.workers w p }

def submit (s : State n C) (c : C) (p : Submit) : State n C := { s with callers := Function.update s.callers c p }

def withLock (s : State n C) (o : Option (Owner n C)) : State n C := { s with tasksLock := o }

/-- The pool after its constructor. -/
def Init (s : State n C) : Prop :=
  s = ⟨fun _ => .locking, fun _ => .idle, .alive, none, [], false, 0, [], []⟩

end State

open State

inductive Act (n : Nat) (C : Type)
  | worker (w : Fin n)
  | caller (c : C)
  | destructor

section
variable {n : Nat} {C : Type}

inductive Step [DecidableEq C] : State n C → Act n C → State n C → Prop
  | lock {s w} : s.workers w = .locking → s.tasksLock = none →
      Step s (.worker w) ((s.goto w .testing).withLock (some (.worker w)))
  | test {s w} : s.workers w = .testing → (s.stop = true ∨ s.tasks ≠ []) → Step s (.worker w) (s.goto w .ready)
  | wait {s w} : s.workers w = .testing → ¬ (s.stop = true ∨ s.tasks ≠ []) →
      Step s (.worker w) ((s.goto w .waiting).withLock none)
  | wake {s w} : s.workers w = .waiting → Step s (.worker w) (s.goto w .locking)
  | leave {s w} : s.workers w = .ready → s.stop = true ∧ s.tasks = [] →
    Step s (.worker w) ((s.goto w .exited).withLock none)
  | fetch {s w task tasks} : s.workers w = .ready → ¬ (s.stop = true ∧ s.tasks = []) → s.tasks = task :: tasks →
      Step s (.worker w) { s.goto w (.fetched task) with tasks, dequeued := s.dequeued ++ [task] }
  | fetchNothing {s w} : s.workers w = .ready → ¬ (s.stop = true ∧ s.tasks = []) → s.tasks = [] →
      Step s (.worker w) (s.goto w .undefined)
  | unlock {s w task} : s.workers w = .fetched task → Step s (.worker w) ((s.goto w (.running task)).withLock none)
  | run {s w task} : s.workers w = .running task → Step s (.worker w) { s.goto w .locking with ran := s.ran ++ [task] }
  /-- No `submit` begins once the pool is being destroyed. -/
  | submit {s c} : s.callers c = .idle → s.destructor = .alive → Step s (.caller c) (s.submit c .locking)
  | submitLock {s c} : s.callers c = .locking → s.tasksLock = none →
      Step s (.caller c) ((s.submit c .locked).withLock (some (.caller c)))
  | emplace {s c} : s.callers c = .locked →
      Step s (.caller c) { s.submit c .emplaced with tasks := s.tasks ++ [s.submitted], submitted := s.submitted + 1 }
  | notifyOne {s c} : s.callers c = .emplaced → Step s (.caller c) (s.submit c .notified)
  | submitUnlock {s c} : s.callers c = .notified → Step s (.caller c) ((s.submit c .idle).withLock none)
  /-- Every `submit` has returned. -/
  | destroy {s} : s.destructor = .alive → (∀ c, s.callers c = .idle) →
    Step s .destructor { s with destructor := .locking }
  | destroyLock {s} : s.destructor = .locking → s.tasksLock = none →
      Step s .destructor { s with destructor := .locked, tasksLock := some .destructor }
  | setStop {s} : s.destructor = .locked → Step s .destructor { s with destructor := .stopped, stop := true }
  | destroyUnlock {s} : s.destructor = .stopped →
    Step s .destructor { s with destructor := .unlocked, tasksLock := none }
  | notifyAll {s} : s.destructor = .unlocked → Step s .destructor { s with destructor := .joining }
  | join {s} : s.destructor = .joining → (∀ w, s.workers w = .exited) →
    Step s .destructor { s with destructor := .done }

/-! ## Who has the lock -/

def Phase.HasLock : Phase → Prop
  | testing => True
  | ready => True
  | fetched _ => True
  | _ => False

def Submit.HasLock : Submit → Prop
  | locked => True
  | emplaced => True
  | notified => True
  | _ => False

def Destructor.HasLock : Destructor → Prop
  | locked => True
  | stopped => True
  | _ => False

/-- Only the owner of the lock changes the queue and the stop sign, so what a worker
tested still holds when it takes a task. -/
structure Locks (s : State n C) : Prop where
  worker : ∀ w, (s.workers w).HasLock → s.tasksLock = some (.worker w)
  caller : ∀ c, (s.callers c).HasLock → s.tasksLock = some (.caller c)
  destructor : s.destructor.HasLock → s.tasksLock = some .destructor
  ready : ∀ w, s.workers w = .ready → s.stop = true ∨ s.tasks ≠ []
  alive : s.destructor = .alive → s.stop = false
  quiet : s.destructor ≠ .alive → ∀ c, s.callers c = .idle
  exited : ∀ w, s.workers w = .exited → s.stop = true ∧ s.tasks = []
  defined : ∀ w, s.workers w ≠ .undefined

namespace Locks
variable {s s' : State n C} {w : Fin n} {c : C}

theorem init (h : Init s) : Locks s := by
  subst h
  refine ⟨fun _ => nofun, fun _ => nofun, nofun, fun _ => nofun, fun _ => rfl, fun h => absurd rfl h,
    fun _ => nofun, fun _ => nofun⟩

/-- A step of a worker that leaves it in `p`. If it takes a task then there was one, and
the worker had the lock. -/
theorem worker_step (h : Locks s) {p : Phase} (hw : s'.workers = Function.update s.workers w p)
    (hc : s'.callers = s.callers)
    (hd : s'.destructor = s.destructor) (hs : s'.stop = s.stop)
    (ht : s'.tasks = s.tasks ∨ s.tasksLock = some (.worker w) ∧ s.tasks ≠ [])
    (hother : ∀ o, o ≠ .worker w → s.tasksLock = some o → s'.tasksLock = some o)
    (hself : p.HasLock → s'.tasksLock = some (.worker w)) (hready : p = .ready → s'.stop = true ∨ s'.tasks ≠ [])
    (hexited : p = .exited → s'.stop = true ∧ s'.tasks = []) (hdefined : p ≠ .undefined) : Locks s' := by
  have hself' : s'.workers w = p := by rw [hw, Function.update_self]
  have hrest : ∀ u, u ≠ w → s'.workers u = s.workers u := fun u hu => by rw [hw, Function.update_of_ne hu]
  refine ⟨fun u hu => ?_, fun c hu => ?_, fun hu => ?_, fun u hu => ?_, ?_, ?_, fun u hu => ?_, fun u => ?_⟩
  · by_cases huw : u = w
    · subst huw
      exact hself (hself' ▸ hu)
    · rw [hrest u huw] at hu
      exact hother _ (fun heq => huw (Owner.worker.inj heq)) (h.worker u hu)
  · rw [hc] at hu
    exact hother _ nofun (h.caller c hu)
  · rw [hd] at hu
    exact hother _ nofun (h.destructor hu)
  · by_cases huw : u = w
    · subst huw
      exact hready (hself'.symm.trans hu)
    · rw [hrest u huw] at hu
      rcases ht with ht | ⟨hlock, -⟩
      · rw [hs, ht]
        exact h.ready u hu
      · have hu' := h.worker u (by rw [hu]; trivial)
        rw [hlock, Option.some.injEq, Owner.worker.injEq] at hu'
        exact absurd hu'.symm huw
  · rw [hd, hs]
    exact h.alive
  · rw [hd, hc]
    exact h.quiet
  · by_cases huw : u = w
    · subst huw
      exact hexited (hself'.symm.trans hu)
    · rw [hrest u huw] at hu
      obtain ⟨hstop, htasks⟩ := h.exited u hu
      rcases ht with ht | ⟨-, hne⟩
      · rw [hs, ht]
        exact ⟨hstop, htasks⟩
      · exact absurd htasks hne
  · by_cases huw : u = w
    · subst huw
      rwa [hself']
    · rw [hrest u huw]
      exact h.defined u

/-- A step of a caller while the pool is not being destroyed. If it adds a task then it
had the lock. -/
theorem caller_step [DecidableEq C] (h : Locks s) {p : Submit} (hc : s'.callers = Function.update s.callers c p)
    (hw : s'.workers = s.workers)
    (hd : s'.destructor = s.destructor) (hs : s'.stop = s.stop) (halive : s.destructor = .alive)
    (ht : s'.tasks = s.tasks ∨ s.tasksLock = some (.caller c))
    (hother : ∀ o, o ≠ .caller c → s.tasksLock = some o → s'.tasksLock = some o)
    (hself : p.HasLock → s'.tasksLock = some (.caller c)) : Locks s' := by
  have hstop : s.stop = false := h.alive halive
  refine ⟨fun w hu => ?_, fun u hu => ?_, fun hu => ?_, fun w hu => ?_, ?_, fun hne => ?_, fun w hu => ?_, fun w => ?_⟩
  · rw [hw] at hu
    exact hother _ nofun (h.worker w hu)
  · by_cases huc : u = c
    · subst huc
      rw [hc, Function.update_self] at hu
      exact hself hu
    · rw [hc, Function.update_of_ne huc] at hu
      exact hother _ (fun heq => huc (Owner.caller.inj heq)) (h.caller u hu)
  · rw [hd] at hu
    exact hother _ nofun (h.destructor hu)
  · rw [hw] at hu
    rcases ht with ht | hlock
    · rw [hs, ht]
      exact h.ready w hu
    · have hu' := h.worker w (by rw [hu]; trivial)
      rw [hlock] at hu'
      cases hu'
  · rw [hd, hs]
    exact h.alive
  · rw [hd] at hne
    exact absurd halive hne
  · rw [hw] at hu
    have := (h.exited w hu).1
    rw [hstop] at this
    cases this
  · rw [hw]
    exact h.defined w

theorem destructor_step (h : Locks s) (hw : s'.workers = s.workers) (hc : s'.callers = s.callers)
    (ht : s'.tasks = s.tasks)
    (hs : s.stop = true → s'.stop = true) (halive : s'.destructor ≠ .alive) (hquiet : ∀ c, s.callers c = .idle)
    (hother : ∀ o, o ≠ .destructor → s.tasksLock = some o → s'.tasksLock = some o)
    (hself : s'.destructor.HasLock → s'.tasksLock = some .destructor) : Locks s' := by
  refine ⟨fun w hu => ?_, fun c hu => ?_, hself, fun w hu => ?_, fun h' => absurd h' halive, fun _ => ?_,
    fun w hu => ?_, fun w => ?_⟩
  · rw [hw] at hu
    exact hother _ nofun (h.worker w hu)
  · rw [hc] at hu
    exact hother _ nofun (h.caller c hu)
  · rw [hw] at hu
    rw [ht]
    exact (h.ready w hu).imp_left hs
  · rw [hc]
    exact hquiet
  · rw [hw] at hu
    rw [ht]
    exact ⟨hs (h.exited w hu).1, (h.exited w hu).2⟩
  · rw [hw]
    exact h.defined w

/-- Who is in `submit` finds the pool alive. -/
theorem alive_of_caller (h : Locks s) {p : Submit} (hc : s.callers c = p) (hp : p ≠ .idle) : s.destructor = .alive := by
  by_contra hne
  exact hp (hc.symm.trans (h.quiet hne c))

/-- The lock is free, or its owner gives it up. -/
theorem pass {o : Owner n C} {l : Option (Owner n C)} (hl : l = none ∨ l = some o) (o' : Owner n C) (ho : o' ≠ o)
    (h : l = some o') (r : Option (Owner n C)) : r = some o' := by
  rcases hl with rfl | rfl
  · cases h
  · exact absurd (Option.some.inj h).symm ho

theorem step [DecidableEq C] (h : Locks s) {a : Act n C} (hstep : Step s a s') : Locks s' := by
  cases hstep with
  | lock hp hl =>
    exact h.worker_step rfl rfl rfl rfl (.inl rfl)
      (fun o ho ho' => pass (.inl hl) o ho ho' _) (fun _ => rfl) nofun nofun nofun
  | test hp ht =>
    have hl := h.worker _ (by rw [hp]; trivial)
    exact h.worker_step rfl rfl rfl rfl (.inl rfl) (fun _ _ ho => ho) (fun _ => hl) (fun _ => ht) nofun nofun
  | wait hp ht =>
    have hl := h.worker _ (by rw [hp]; trivial)
    exact h.worker_step rfl rfl rfl rfl (.inl rfl) (fun o ho ho' => pass (.inr hl) o ho ho' _) nofun nofun nofun nofun
  | wake hp => exact h.worker_step rfl rfl rfl rfl (.inl rfl) (fun _ _ ho => ho) nofun nofun nofun nofun
  | leave hp ht =>
    have hl := h.worker _ (by rw [hp]; trivial)
    exact h.worker_step rfl rfl rfl rfl (.inl rfl)
      (fun o ho ho' => pass (.inr hl) o ho ho' _) nofun nofun (fun _ => ht) nofun
  | fetch hp ht heq =>
    have hl := h.worker _ (by rw [hp]; trivial)
    exact h.worker_step rfl rfl rfl rfl (.inr ⟨hl, by rw [heq]; nofun⟩) (fun _ _ ho => ho) (fun _ => hl) nofun nofun nofun
  | fetchNothing hp ht heq =>
    -- the condition of the wait still holds
    rcases h.ready _ hp with hstop | hne
    · exact absurd ⟨hstop, heq⟩ ht
    · exact absurd heq hne
  | unlock hp =>
    have hl := h.worker _ (by rw [hp]; trivial)
    exact h.worker_step rfl rfl rfl rfl (.inl rfl) (fun o ho ho' => pass (.inr hl) o ho ho' _) nofun nofun nofun nofun
  | run hp => exact h.worker_step rfl rfl rfl rfl (.inl rfl) (fun _ _ ho => ho) nofun nofun nofun nofun
  | submit hp halive => exact h.caller_step rfl rfl rfl rfl halive (.inl rfl) (fun _ _ ho => ho) nofun
  | submitLock hp hl =>
    exact h.caller_step rfl rfl rfl rfl (h.alive_of_caller hp nofun) (.inl rfl)
      (fun o ho ho' => pass (.inl hl) o ho ho' _) fun _ => rfl
  | emplace hp =>
    have hl := h.caller _ (by rw [hp]; trivial)
    exact h.caller_step rfl rfl rfl rfl (h.alive_of_caller hp nofun) (.inr hl) (fun _ _ ho => ho) fun _ => hl
  | notifyOne hp =>
    have hl := h.caller _ (by rw [hp]; trivial)
    exact h.caller_step rfl rfl rfl rfl (h.alive_of_caller hp nofun) (.inl rfl) (fun _ _ ho => ho) fun _ => hl
  | submitUnlock hp =>
    have hl := h.caller _ (by rw [hp]; trivial)
    exact h.caller_step rfl rfl rfl rfl (h.alive_of_caller hp nofun) (.inl rfl)
      (fun o ho ho' => pass (.inr hl) o ho ho' _) nofun
  | destroy hp hquiet => exact h.destructor_step rfl rfl rfl id nofun hquiet (fun _ _ ho => ho) nofun
  | destroyLock hp hl =>
    exact h.destructor_step rfl rfl rfl id nofun (h.quiet (by rw [hp]; nofun))
      (fun o ho ho' => pass (.inl hl) o ho ho' _) fun _ => rfl
  | setStop hp =>
    have hl := h.destructor (by rw [hp]; trivial)
    exact h.destructor_step rfl rfl rfl (fun _ => rfl) nofun (h.quiet (by rw [hp]; nofun))
      (fun _ _ ho => ho) fun _ => hl
  | destroyUnlock hp =>
    have hl := h.destructor (by rw [hp]; trivial)
    exact h.destructor_step rfl rfl rfl id nofun (h.quiet (by rw [hp]; nofun))
      (fun o ho ho' => pass (.inr hl) o ho ho' _) nofun
  | notifyAll hp => exact h.destructor_step rfl rfl rfl id nofun (h.quiet (by rw [hp]; nofun)) (fun _ _ ho => ho) nofun
  | join hp _ => exact h.destructor_step rfl rfl rfl id nofun (h.quiet (by rw [hp]; nofun)) (fun _ _ ho => ho) nofun

end Locks

/-! ## Where the tasks are -/

/-- The task a worker has taken and not run. -/
def Phase.task : Phase → Option Nat
  | fetched t => some t
  | running t => some t
  | _ => none

/-- Every task is in the queue, with one worker, or has been run. -/
structure Tasks (s : State n C) : Prop where
  order : s.dequeued ++ s.tasks = List.range s.submitted
  ran_nodup : s.ran.Nodup
  ran : ∀ t ∈ s.ran, t ∈ s.dequeued
  held : ∀ w t, (s.workers w).task = some t → t ∈ s.dequeued ∧ t ∉ s.ran
  held_once : ∀ w u t, (s.workers w).task = some t → (s.workers u).task = some t → w = u
  taken : ∀ t ∈ s.dequeued, t ∈ s.ran ∨ ∃ w, (s.workers w).task = some t

namespace Tasks
variable {s s' : State n C} {w : Fin n} {c : C}

theorem init (h : Init s) : Tasks s := by
  subst h
  exact ⟨rfl, List.nodup_nil, by simp, fun _ _ => nofun, fun _ _ _ => nofun, by simp⟩

/-- Nobody takes or runs a task. -/
theorem congr (h : Tasks s) (htask : ∀ w, (s'.workers w).task = (s.workers w).task) (hd : s'.dequeued = s.dequeued)
    (hr : s'.ran = s.ran) (ho : s'.dequeued ++ s'.tasks = List.range s'.submitted) : Tasks s' := by
  refine ⟨ho, ?_, ?_, fun w t => ?_, fun w u t => ?_, ?_⟩
  · rw [hr]
    exact h.ran_nodup
  · rw [hr, hd]
    exact h.ran
  · rw [htask, hd, hr]
    exact h.held w t
  · rw [htask, htask]
    exact h.held_once w u t
  · simp only [htask, hd, hr]
    exact h.taken

theorem goto_task (s : State n C) {p : Phase} (hp : p.task = (s.workers w).task) (u : Fin n) :
    ((s.goto w p).workers u).task = (s.workers u).task := by
  by_cases hu : u = w
  · subst hu
    show (Function.update s.workers u p u).task = _
    rw [Function.update_self, hp]
  · show (Function.update s.workers w p u).task = _
    rw [Function.update_of_ne hu]

/-- A worker goes on with the task it has, or without one. -/
theorem goto (h : Tasks s) {p q : Phase} (hq : s.workers w = q) (hp : p.task = q.task) (l : Option (Owner n C)) :
    Tasks ((s.goto w p).withLock l) :=
  h.congr (goto_task s (hp.trans (congrArg Phase.task hq.symm))) rfl rfl h.order

theorem fetch (h : Tasks s) {task : Nat} {tasks : List Nat} (hq : s.workers w = .ready) (ht : s.tasks = task :: tasks) :
    Tasks { s.goto w (.fetched task) with tasks, dequeued := s.dequeued ++ [task] } := by
  have horder := h.order
  rw [ht] at horder
  have hnd : (s.dequeued ++ task :: tasks).Nodup := horder ▸ List.nodup_range
  have hnew : task ∉ s.dequeued := fun hmem => (List.nodup_append.1 hnd).2.2 task hmem task List.mem_cons_self rfl
  -- the other workers keep the tasks they hold
  have hself : ∀ u t, ((s.goto w (.fetched task)).workers u).task = some t ↔
      u = w ∧ t = task ∨ (s.workers u).task = some t := by
    intro u t
    show (Function.update s.workers w (.fetched task) u).task = some t ↔ _
    by_cases hu : u = w
    · subst hu
      simp [Phase.task, hq, eq_comm]
    · simp [hu]
  have horder' : (s.dequeued ++ [task]) ++ tasks = List.range s.submitted := by
    rw [List.append_assoc]
    exact horder
  refine ⟨horder', h.ran_nodup, fun t ht => List.mem_append_left _ (h.ran t ht), fun u t hu => ?_,
    fun u v t hu hv => ?_, fun t hmem => ?_⟩
  · rcases (hself u t).1 hu with ⟨-, rfl⟩ | hold
    · exact ⟨by simp, fun hr => hnew (h.ran t hr)⟩
    · exact ⟨List.mem_append_left _ (h.held u t hold).1, (h.held u t hold).2⟩
  · rcases (hself u t).1 hu with ⟨huw, hut⟩ | hold
    · rcases (hself v t).1 hv with ⟨hvw, -⟩ | hold'
      · exact huw.trans hvw.symm
      · exact absurd (hut ▸ (h.held v t hold').1) hnew
    · rcases (hself v t).1 hv with ⟨-, hvt⟩ | hold'
      · exact absurd (hvt ▸ (h.held u t hold).1) hnew
      · exact h.held_once u v t hold hold'
  · rcases List.mem_append.1 hmem with hmem | hmem
    · apply (h.taken t hmem).imp_right
      rintro ⟨u, hu⟩
      exact ⟨u, (hself u t).2 (.inr hu)⟩
    · exact .inr ⟨w, (hself w t).2 (.inl ⟨rfl, List.mem_singleton.1 hmem⟩)⟩

theorem run (h : Tasks s) {task : Nat} (hq : s.workers w = .running task) :
    Tasks { s.goto w .locking with ran := s.ran ++ [task] } := by
  have hw : (s.workers w).task = some task := by rw [hq]; rfl
  obtain ⟨hdeq, hran⟩ := h.held w task hw
  have hself : ∀ u t, ((s.goto w .locking).workers u).task = some t ↔ u ≠ w ∧ (s.workers u).task = some t := by
    intro u t
    show (Function.update s.workers w .locking u).task = some t ↔ _
    by_cases hu : u = w
    · subst hu
      simp [Phase.task]
    · simp [hu]
  refine ⟨h.order, ?_, fun t ht => ?_, fun u t hu => ?_, fun u v t hu hv => ?_, fun t hmem => ?_⟩
  · exact List.nodup_append.2 ⟨h.ran_nodup, List.nodup_singleton _,
      fun a ha b hb hab => hran (List.mem_singleton.1 hb ▸ hab ▸ ha)⟩
  · rcases List.mem_append.1 ht with ht | ht
    · exact h.ran t ht
    · exact List.mem_singleton.1 ht ▸ hdeq
  · obtain ⟨huw, hold⟩ := (hself u t).1 hu
    refine ⟨(h.held u t hold).1, fun hmem => ?_⟩
    rcases List.mem_append.1 hmem with hmem | hmem
    · exact (h.held u t hold).2 hmem
    · obtain rfl := List.mem_singleton.1 hmem
      exact huw (h.held_once u w t hold hw)
  · exact h.held_once u v t ((hself u t).1 hu).2 ((hself v t).1 hv).2
  · rcases h.taken t hmem with ht | ⟨u, hu⟩
    · exact .inl (List.mem_append_left _ ht)
    · by_cases huw : u = w
      · subst huw
        obtain rfl := Option.some.inj (hw.symm.trans hu)
        exact .inl (by simp)
      · exact .inr ⟨u, (hself u t).2 ⟨huw, hu⟩⟩

theorem step [DecidableEq C] (h : Tasks s) {a : Act n C} (hstep : Step s a s') : Tasks s' := by
  cases hstep with
  | fetch hp _ heq => exact h.fetch hp heq
  | run hp => exact h.run hp
  | emplace hp =>
    refine h.congr (fun _ => rfl) rfl rfl ?_
    show s.dequeued ++ (s.tasks ++ [s.submitted]) = List.range (s.submitted + 1)
    rw [← List.append_assoc, h.order, List.range_succ]
  | lock hp _ => exact h.goto (p := .testing) hp rfl _
  | test hp _ => exact h.goto (p := .ready) hp rfl s.tasksLock
  | wait hp _ => exact h.goto (p := .waiting) hp rfl _
  | wake hp => exact h.goto (p := .locking) hp rfl s.tasksLock
  | leave hp _ => exact h.goto (p := .exited) hp rfl _
  | fetchNothing hp _ _ => exact h.goto (p := .undefined) hp rfl s.tasksLock
  | @unlock w task hp => exact h.goto (p := .running task) hp rfl _
  | submit | submitLock | notifyOne | submitUnlock | destroy | destroyLock | setStop | destroyUnlock | notifyAll | join =>
    exact h.congr (fun _ => rfl) rfl rfl h.order

end Tasks

/-- No task is run twice, tasks leave the queue in the order in which they came, and when
all workers have exited every task has been run. -/
theorem exactly_once [DecidableEq C] {s : State n C} (hn : 0 < n) (h : Reach Init Step s) :
    s.ran.Nodup ∧ (∀ t ∈ s.ran, t < s.submitted) ∧ s.dequeued <+: List.range s.submitted ∧
    (∀ w, s.workers w ≠ .undefined) ∧
    ((∀ w, s.workers w = .exited) → s.tasks = [] ∧ s.ran.Perm (List.range s.submitted)) := by
  have hlocks : Locks s := h.inv (fun _ => .init) fun _ _ _ h => h.step
  have htasks : Tasks s := h.inv (fun _ => .init) fun _ _ _ h => h.step
  have hmem : ∀ t ∈ s.dequeued, t < s.submitted := fun t ht =>
    List.mem_range.1 (htasks.order ▸ List.mem_append_left _ ht)
  refine ⟨htasks.ran_nodup, fun t ht => hmem t (htasks.ran t ht), ⟨_, htasks.order⟩, hlocks.defined, fun hall => ?_⟩
  have hempty : s.tasks = [] := (hlocks.exited ⟨0, hn⟩ (hall _)).2
  have horder := htasks.order
  rw [hempty, List.append_nil] at horder
  refine ⟨hempty, (List.perm_ext_iff_of_nodup htasks.ran_nodup List.nodup_range).2 fun t => ?_⟩
  rw [← horder]
  refine ⟨htasks.ran t, fun ht => (htasks.taken t ht).resolve_right ?_⟩
  rintro ⟨w, hw⟩
  rw [hall w] at hw
  cases hw

/-- One worker is asleep when a task comes, runs it, and finds the queue empty when the
pool is destroyed. -/
theorem exactly_once_one : ∃ s : State 1 Unit, Reach Init Step s ∧ (∀ w, s.workers w = .exited) ∧ s.tasks = [] ∧
    s.ran.Perm [0] := by
  have h0 : Reach (Init (n := 1) (C := Unit)) Step _ := .start rfl
  have h1 := h0.next (.lock (w := 0) rfl rfl)
  have h2 := h1.next (.wait (w := 0) rfl (by simp [goto, withLock]))
  have h3 := h2.next (.submit (c := ()) rfl rfl)
  have h4 := h3.next (.submitLock (c := ()) rfl rfl)
  have h5 := h4.next (.emplace (c := ()) rfl)
  have h6 := h5.next (.notifyOne (c := ()) rfl)
  have h7 := h6.next (.submitUnlock (c := ()) rfl)
  have h8 := h7.next (.wake (w := 0) rfl)
  have h9 := h8.next (.lock (w := 0) rfl rfl)
  have h10 := h9.next (.test (w := 0) rfl (.inr nofun))
  have h11 := h10.next (.fetch (w := 0) rfl (fun h => nomatch h.1) rfl)
  have h12 := h11.next (.unlock (w := 0) rfl)
  have h13 := h12.next (.run (w := 0) rfl)
  have h14 := h13.next (.destroy rfl fun _ => rfl)
  have h15 := h14.next (.destroyLock rfl rfl)
  have h16 := h15.next (.setStop rfl)
  have h17 := h16.next (.destroyUnlock rfl)
  have h18 := h17.next (.lock (w := 0) rfl rfl)
  have h19 := h18.next (.test (w := 0) rfl (.inl rfl))
  have h20 := h19.next (.leave (w := 0) rfl ⟨rfl, rfl⟩)
  have hall : ∀ w : Fin 1, w = 0 := fun w => Subsingleton.elim w 0
  obtain ⟨-, -, -, -, hdone⟩ := exactly_once Nat.one_pos h20
  obtain ⟨htasks, hran⟩ := hdone fun w => by rw [hall w]; rfl
  exact ⟨_, h20, fun w => by rw [hall w]; rfl, htasks, hran⟩

end

end MisakiDB.ThreadPool
