import MisakiDB.Buffer.CachedStore
import Mathlib.Data.List.Dedup
/-!
# The size of a pool

A pool has a fixed number of frames. A page that is not pinned cannot get one while
pinned pages have them all: the fetch waits, and with one client nobody unpins.
`pinsRun` follows a program on a `Cache` and keeps the pins, which are the ones in the
frames (`pinsRun_counts`). A `Pool` is a cache with its size, its pins and what it
evicts.
-/

namespace MisakiDB

open Prog

variable {κ π ρ : Type} [DecidableEq κ]

/-- The pins after an operation, one entry each. -/
def PageOp.pinned (pins : List κ) : PageOp κ π ρ → List κ
  | .fetchPage k | .appendNewPage k => k :: pins
  | .unpinPage k _ => pins.erase k
  | _ => pins

/-- The operation needs a frame and there is none. -/
def PageOp.waits (poolSize : Nat) (pins : List κ) : PageOp κ π ρ → Bool
  | .fetchPage k | .appendNewPage k => poolSize ≤ pins.dedup.length && !pins.contains k
  | _ => false

namespace Cache
variable {choose : Nat → List κ} {c c' : Cache κ π ρ} {pins pins' : List κ}

/-- The pins that a program leaves, or `none` if it waits for a frame. -/
def pinsRun [Inhabited π] {α : Type} (poolSize : Nat) (choose : Nat → List κ) :
    PageProg κ π ρ α → Cache κ π ρ → List κ → Option (List κ)
  | .ret _, _, pins => some pins
  | .call o k, c, pins =>
    if o.waits poolSize pins then none
    else
      match exec choose o c with
      | some (r, c') => pinsRun poolSize choose (k r) c' (o.pinned pins)
      | none => some pins
  | .fail, _, pins => some pins

/-- The list has every pin of the pool once. -/
def Counts (pins : List κ) (c : Cache κ π ρ) : Prop := ∀ k, pins.count k = c.store.pins k

theorem evict_pins (c : Cache κ π ρ) (x k : κ) : (c.evict x).store.pins k = c.store.pins k := by
  unfold evict
  cases hx : c.frame x with
  | none => rfl
  | some f =>
    simp only
    split
    · rename_i hpin
      by_cases hk : k = x
      · subst hk
        simp [store, free, hx, hpin]
      · simp [store, free, hk]
    · rfl

theorem evictAll_pins (c : Cache κ π ρ) (xs : List κ) (k : κ) : (c.evictAll xs).store.pins k = c.store.pins k := by
  show (xs.foldl evict c).store.pins k = c.store.pins k
  induction xs generalizing c with
  | nil => rfl
  | cons x xs ih => rw [List.foldl_cons, ih, evict_pins]

theorem setFrame_pins (c : Cache κ π ρ) (x k : κ) (f : Frame π) :
    (c.setFrame x f).store.pins k = if k = x then f.pinCount else c.store.pins k := by
  by_cases hk : k = x
  · subst hk
    simp [store, setFrame]
  · simp [store, setFrame, hk]

theorem Counts.evictAll (h : Counts pins c) (xs : List κ) : Counts pins (c.evictAll xs) := fun k => by
  rw [h k, evictAll_pins]

/-- One page has one more pin. -/
theorem Counts.pin (h : Counts pins c) {x : κ} {f : Frame π} (hf : f.pinCount = c.store.pins x + 1) :
    Counts (x :: pins) (c.setFrame x f) := fun k => by
  rw [setFrame_pins]
  by_cases hk : k = x
  · subst hk
    rw [if_pos rfl, List.count_cons_self, h, hf]
  · rw [if_neg hk, List.count_cons_of_ne (Ne.symm hk), h]

/-- The pins are left alone. -/
theorem Counts.setFrame (h : Counts pins c) {x : κ} {f : Frame π} (hf : f.pinCount = c.store.pins x) :
    Counts pins (c.setFrame x f) := fun k => by
  rw [setFrame_pins]
  by_cases hk : k = x
  · subst hk
    rw [if_pos rfl, h, hf]
  · rw [if_neg hk, h]

omit [DecidableEq κ] in
theorem store_pins_some {x : κ} {f : Frame π} (hf : c.frame x = some f) : c.store.pins x = f.pinCount := by
  simp [store, hf]

omit [DecidableEq κ] in
theorem store_pins_none {x : κ} (hf : c.frame x = none) : c.store.pins x = 0 := by
  simp [store, hf]

variable [Inhabited π]

theorem Counts.step (h : Counts pins c) {o : PageOp κ π ρ} {r : o.Res} (hexec : exec choose o c = some (r, c')) :
    Counts (o.pinned pins) c' := by
  cases o with
  | fetchPage k =>
    -- an eviction takes no page that is pinned
    have h' := h.evictAll (choose c.time)
    simp only [exec] at hexec
    split at hexec
    · rename_i f hf
      obtain ⟨-, rfl⟩ := Prod.mk.inj (Option.some.inj hexec)
      exact h'.pin (by rw [store_pins_some hf])
    · rename_i hf
      obtain ⟨p, -, hp⟩ := Option.map_eq_some_iff.1 hexec
      obtain ⟨-, rfl⟩ := Prod.mk.inj hp
      exact h'.pin (by rw [store_pins_none hf])
  | appendNewPage k =>
    have h' := h.evictAll (choose c.time)
    simp only [exec] at hexec
    split at hexec
    · rename_i hf _
      obtain ⟨-, rfl⟩ := Prod.mk.inj (Option.some.inj hexec)
      have hfile : Counts pins ((c.evictAll (choose c.time)).setFile k default) := h'
      exact hfile.pin (by rw [store_pins_none (c := (c.evictAll (choose c.time)).setFile k default) hf])
    · cases hexec
  | unpinPage k d =>
    simp only [exec] at hexec
    split at hexec
    · rename_i f hf
      split at hexec
      · rename_i hpos
        obtain ⟨-, rfl⟩ := Prod.mk.inj (Option.some.inj hexec)
        intro x
        rw [setFrame_pins]
        show (pins.erase k).count x = _
        by_cases hx : x = k
        · subst hx
          rw [if_pos rfl, List.count_erase_self, h, store_pins_some hf]
        · rw [if_neg hx, List.count_erase_of_ne hx, h]
      · cases hexec
    · cases hexec
  | setData k p =>
    obtain ⟨f, hf, hp⟩ := Option.map_eq_some_iff.1 hexec
    obtain ⟨-, rfl⟩ := Prod.mk.inj hp
    exact h.setFrame (by rw [store_pins_some hf])
  | getData k | getPinCount k =>
    obtain ⟨f, hf, hp⟩ := Option.map_eq_some_iff.1 hexec
    obtain ⟨-, rfl⟩ := Prod.mk.inj hp
    exact h
  | rLatch k | rUnlatch k | wLatch k | wUnlatch k =>
    simp only [exec] at hexec
    split at hexec
    · obtain ⟨-, rfl⟩ := Prod.mk.inj (Option.some.inj hexec)
      exact h
    · cases hexec
  | getMember | setMember r =>
    obtain ⟨-, rfl⟩ := Prod.mk.inj (Option.some.inj hexec)
    exact h

/-- The pins that are kept are those in the frames. -/
theorem pinsRun_counts {α : Type} {poolSize : Nat} {p : PageProg κ π ρ α} {a : α} (h : Counts pins c)
    (hp : pinsRun poolSize choose p c pins = some pins') (hrun : run (exec choose) p c = some (a, c')) :
    Counts pins' c' := by
  induction p generalizing c pins with
  | ret x =>
    simp only [run, Option.some.injEq, Prod.mk.injEq] at hrun
    obtain ⟨-, rfl⟩ := hrun
    obtain rfl := Option.some.inj hp
    exact h
  | call o k ih =>
    simp only [run] at hrun
    simp only [pinsRun] at hp
    split at hp
    · cases hp
    cases hexec : exec choose o c with
    | none =>
      rw [hexec] at hrun
      cases hrun
    | some rc =>
      rw [hexec] at hp hrun
      exact ih rc.1 (h.step hexec) hp hrun
  | fail => cases hrun

end Cache

/-- Why a call does not return: it cannot go on, it waits for a frame, or it is watched
and its pool evicts changes without a dirty bit. -/
inductive Failure
  | stuck
  | waits
  | lost
  deriving DecidableEq

structure Pool (κ π ρ : Type) where
  poolSize : Nat
  evicts : Nat → List κ
  cache : Cache κ π ρ
  pins : List κ

namespace Pool
variable [Inhabited π]

def new (poolSize : Nat) (evicts : Nat → List κ) (cache : Cache κ π ρ) : Pool κ π ρ := ⟨poolSize, evicts, cache, []⟩

def perform {α : Type} (p : PageProg κ π ρ α) (d : Pool κ π ρ) : Except Failure (α × Pool κ π ρ) :=
  match d.cache.pinsRun d.poolSize d.evicts p d.pins, run (Cache.exec d.evicts) p d.cache with
  | none, _ => .error .waits
  | some pins, some (a, cache) => .ok (a, { d with cache, pins })
  | some _, none => .error .stuck

/-- What a program does on the cache, it does on the pool, unless it waits. -/
theorem perform_of_run {α : Type} {p : PageProg κ π ρ α} {d : Pool κ π ρ} {a : α} {cache : Cache κ π ρ}
    (h : run (Cache.exec d.evicts) p d.cache = some (a, cache)) :
    d.perform p = .error .waits ∨ ∃ pins, d.perform p = .ok (a, { d with cache, pins }) := by
  unfold perform
  rw [h]
  cases d.cache.pinsRun d.poolSize d.evicts p d.pins with
  | none => exact .inl rfl
  | some pins => exact .inr ⟨pins, rfl⟩

/-- The pins are those in the frames. -/
def Counted (d : Pool κ π ρ) : Prop := Cache.Counts d.pins d.cache

omit [Inhabited π] in
theorem counted_new (poolSize : Nat) (evicts : Nat → List κ) (s : PageStore κ π ρ) :
    (new poolSize evicts (.ofFiles s)).Counted :=
  fun _ => rfl

theorem counted_perform {α : Type} {p : PageProg κ π ρ α} {d d' : Pool κ π ρ} {a : α} (h : d.Counted)
    (hp : d.perform p = .ok (a, d')) : d'.Counted := by
  unfold perform at hp
  split at hp
  · cases hp
  · rename_i hpins hrun
    obtain ⟨-, rfl⟩ := Prod.mk.inj (Except.ok.inj hp)
    exact Cache.pinsRun_counts h hpins hrun
  · cases hp

end Pool

end MisakiDB
