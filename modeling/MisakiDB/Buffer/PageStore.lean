import MisakiDB.Lib.Program
/-!
# What the file managers ask of a buffer pool

The code above the pools is written as programs over `PageOp`: the pool's calls
(`fetchPage`, `appendNewPage`, `unpinPage`), reads and writes through the `Page *`
a fetch returned, the page latches, and the members of the object that runs.
A `Page *` is the key of its page.

`PageStore` is the pool as its clients see it: every page holds the content
last written to it, and carries a pin count and a latch. `exec` runs a program
against it. A call that would throw, block for ever or break the pool's rules
(a fetch of a page that is in no file, an append of one that is, an unpin
without a pin) has no result.
-/

namespace MisakiDB

inductive PageOp (κ π ρ : Type)
  | fetchPage (k : κ)
  | appendNewPage (k : κ)
  | unpinPage (k : κ) (isDirty : Bool)
  | getData (k : κ)
  | setData (k : κ) (p : π)
  | getPinCount (k : κ)
  | rLatch (k : κ)
  | rUnlatch (k : κ)
  | wLatch (k : κ)
  | wUnlatch (k : κ)
  | getMember
  | setMember (r : ρ)

@[reducible] def PageOp.Res {κ π ρ : Type} : PageOp κ π ρ → Type
  | getData _ => π
  | getPinCount _ => Nat
  | getMember => ρ
  | _ => Unit

/-- A call to the pool or to a page, not to the object. -/
def PageOp.OnPool {κ π ρ : Type} : PageOp κ π ρ → Prop
  | getMember => False
  | setMember _ => False
  | _ => True

/-- Programs over a pool of pages `π` named by `κ`, run by an object whose
members are `ρ`. -/
abbrev PageProg (κ π ρ α : Type) := Prog (PageOp κ π ρ) PageOp.Res α

section Calls
variable {κ π ρ : Type}

def fetchPage (k : κ) : PageProg κ π ρ Unit := Prog.perform (PageOp.fetchPage k)
def appendNewPage (k : κ) : PageProg κ π ρ Unit := Prog.perform (PageOp.appendNewPage k)
def unpinPage (k : κ) (isDirty : Bool) : PageProg κ π ρ Unit := Prog.perform (PageOp.unpinPage k isDirty)
def getData (k : κ) : PageProg κ π ρ π := Prog.perform (PageOp.getData k)
def setData (k : κ) (p : π) : PageProg κ π ρ Unit := Prog.perform (PageOp.setData k p)
def getPinCount (k : κ) : PageProg κ π ρ Nat := Prog.perform (PageOp.getPinCount k)
def rLatch (k : κ) : PageProg κ π ρ Unit := Prog.perform (PageOp.rLatch k)
def rUnlatch (k : κ) : PageProg κ π ρ Unit := Prog.perform (PageOp.rUnlatch k)
def wLatch (k : κ) : PageProg κ π ρ Unit := Prog.perform (PageOp.wLatch k)
def wUnlatch (k : κ) : PageProg κ π ρ Unit := Prog.perform (PageOp.wUnlatch k)
def getMember : PageProg κ π ρ ρ := Prog.perform PageOp.getMember
def setMember (r : ρ) : PageProg κ π ρ Unit := Prog.perform (PageOp.setMember r)

end Calls

/-- The page latch: some readers, or one writer. -/
inductive Latch
  | reading (readers : Nat)
  | writing
  deriving DecidableEq, Repr

structure PageStore (κ π ρ : Type) where
  page : κ → Option π
  pins : κ → Nat
  latch : κ → Latch
  member : ρ

namespace PageStore

variable {κ π ρ : Type} [DecidableEq κ]

def setPage (s : PageStore κ π ρ) (k : κ) (p : π) : PageStore κ π ρ :=
  { s with page := Function.update s.page k (some p) }

def setPins (s : PageStore κ π ρ) (k : κ) (n : Nat) : PageStore κ π ρ :=
  { s with pins := Function.update s.pins k n }

def setLatch (s : PageStore κ π ρ) (k : κ) (l : Latch) : PageStore κ π ρ :=
  { s with latch := Function.update s.latch k l }

def withMember (s : PageStore κ π ρ) (r : ρ) : PageStore κ π ρ := { s with member := r }

/-- The store after a restart. -/
def reopen (s : PageStore κ π ρ) : PageStore κ π ρ := { s with pins := fun _ => 0, latch := fun _ => .reading 0 }

section Fields
variable (s : PageStore κ π ρ) (k : κ) (p : π) (n : Nat) (l : Latch) (r : ρ)

@[simp] theorem setPage_page : (s.setPage k p).page = Function.update s.page k (some p) := rfl
@[simp] theorem setPage_pins : (s.setPage k p).pins = s.pins := rfl
@[simp] theorem setPage_latch : (s.setPage k p).latch = s.latch := rfl
@[simp] theorem setPage_member : (s.setPage k p).member = s.member := rfl
@[simp] theorem setPins_page : (s.setPins k n).page = s.page := rfl
@[simp] theorem setPins_pins : (s.setPins k n).pins = Function.update s.pins k n := rfl
@[simp] theorem setPins_latch : (s.setPins k n).latch = s.latch := rfl
@[simp] theorem setPins_member : (s.setPins k n).member = s.member := rfl
@[simp] theorem setLatch_page : (s.setLatch k l).page = s.page := rfl
@[simp] theorem setLatch_pins : (s.setLatch k l).pins = s.pins := rfl
@[simp] theorem setLatch_latch : (s.setLatch k l).latch = Function.update s.latch k l := rfl
@[simp] theorem setLatch_member : (s.setLatch k l).member = s.member := rfl
omit [DecidableEq κ] in
@[simp] theorem withMember_page : (s.withMember r).page = s.page := rfl
omit [DecidableEq κ] in
@[simp] theorem withMember_pins : (s.withMember r).pins = s.pins := rfl
omit [DecidableEq κ] in
@[simp] theorem withMember_latch : (s.withMember r).latch = s.latch := rfl
omit [DecidableEq κ] in
@[simp] theorem withMember_member : (s.withMember r).member = r := rfl

end Fields

variable [Inhabited π]

/-- What an operation does on the store. An appended page is zeroed. -/
def exec : Prog.Handler (PageOp κ π ρ) PageOp.Res (PageStore κ π ρ)
  | .fetchPage k, s => (s.page k).map fun _ => ((), s.setPins k (s.pins k + 1))
  | .appendNewPage k, s =>
    if s.page k = none then some ((), (s.setPage k default).setPins k (s.pins k + 1)) else none
  | .unpinPage k _, s => if 0 < s.pins k then some ((), s.setPins k (s.pins k - 1)) else none
  | .getData k, s => (s.page k).map fun p => (p, s)
  | .setData k p, s => (s.page k).map fun _ => ((), s.setPage k p)
  | .getPinCount k, s => (s.page k).map fun _ => (s.pins k, s)
  | .rLatch k, s =>
    match s.latch k with
    | .reading n => some ((), s.setLatch k (.reading (n + 1)))
    | .writing => none
  | .rUnlatch k, s =>
    match s.latch k with
    | .reading (n + 1) => some ((), s.setLatch k (.reading n))
    | _ => none
  | .wLatch k, s => if s.latch k = .reading 0 then some ((), s.setLatch k .writing) else none
  | .wUnlatch k, s => if s.latch k = .writing then some ((), s.setLatch k (.reading 0)) else none
  | .getMember, s => some (s.member, s)
  | .setMember r, s => some ((), s.withMember r)

/-- A program that does not ask for the members does not tell two objects apart. -/
theorem run_withMember {α : Type} {p : PageProg κ π ρ α} (hp : Prog.Uses PageOp.OnPool p)
    (s : PageStore κ π ρ) (r : ρ) :
    Prog.run exec p (s.withMember r) = (Prog.run exec p s).map fun x => (x.1, x.2.withMember r) := by
  refine Prog.run_map (f := fun s => s.withMember r) (fun o s ho => ?_) hp s
  cases o with
  | fetchPage k => simp only [exec, withMember_page, Option.map_map]; rfl
  | appendNewPage k =>
    simp only [exec, withMember_page]
    rw [apply_ite (Option.map _)]
    rfl
  | unpinPage k d =>
    simp only [exec, withMember_pins]
    rw [apply_ite (Option.map _)]
    rfl
  | getData k => simp only [exec, withMember_page, Option.map_map]; rfl
  | setData k p => simp only [exec, withMember_page, Option.map_map]; rfl
  | getPinCount k => simp only [exec, withMember_page, Option.map_map]; rfl
  | rLatch k => simp only [exec, withMember_latch]; split <;> rfl
  | rUnlatch k => simp only [exec, withMember_latch]; split <;> rfl
  | wLatch k =>
    simp only [exec, withMember_latch]
    rw [apply_ite (Option.map _)]
    rfl
  | wUnlatch k =>
    simp only [exec, withMember_latch]
    rw [apply_ite (Option.map _)]
    rfl
  | getMember => exact ho.elim
  | setMember r => exact ho.elim

/-! ## What each call needs and leaves -/

section Rules
variable {s : PageStore κ π ρ} {k : κ} {p : π} {d : Bool}

open Prog

@[simp] theorem wp_fetchPage {Q} : wp exec (fetchPage k) Q s ↔
    (∃ p, s.page k = some p) ∧ Q () (s.setPins k (s.pins k + 1)) := by
  apply Iff.trans (wp_perform (PageOp.fetchPage k))
  simp only [exec]
  cases s.page k <;> simp

@[simp] theorem wp_appendNewPage {Q} : wp exec (appendNewPage k) Q s ↔
    s.page k = none ∧ Q () ((s.setPage k default).setPins k (s.pins k + 1)) := by
  apply Iff.trans (wp_perform (PageOp.appendNewPage k))
  simp only [exec]
  cases s.page k <;> simp

@[simp] theorem wp_unpinPage {Q} : wp exec (unpinPage k d) Q s ↔
    0 < s.pins k ∧ Q () (s.setPins k (s.pins k - 1)) := by
  apply Iff.trans (wp_perform (PageOp.unpinPage k d))
  simp only [exec]
  split <;> simp [*]

@[simp] theorem wp_getData {Q : π → PageStore κ π ρ → Prop} : wp exec (getData k) Q s ↔
    ∃ p, s.page k = some p ∧ Q p s := by
  apply Iff.trans (wp_perform (PageOp.getData k))
  simp only [exec]
  cases s.page k <;> simp

@[simp] theorem wp_setData {Q} : wp exec (setData k p) Q s ↔
    (∃ q, s.page k = some q) ∧ Q () (s.setPage k p) := by
  apply Iff.trans (wp_perform (PageOp.setData k p))
  simp only [exec]
  cases s.page k <;> simp

@[simp] theorem wp_getPinCount {Q : Nat → PageStore κ π ρ → Prop} : wp exec (getPinCount k) Q s ↔
    (∃ p, s.page k = some p) ∧ Q (s.pins k) s := by
  apply Iff.trans (wp_perform (PageOp.getPinCount k))
  simp only [exec]
  cases s.page k <;> simp

@[simp] theorem wp_getMember {Q : ρ → PageStore κ π ρ → Prop} :
    wp exec getMember Q s ↔ Q s.member s := by
  apply Iff.trans (wp_perform PageOp.getMember)
  simp [exec]

@[simp] theorem wp_setMember {r : ρ} {Q} :
    wp exec (setMember r) Q s ↔ Q () (s.withMember r) := by
  apply Iff.trans (wp_perform (PageOp.setMember r))
  simp [exec]

@[simp] theorem wp_rLatch {Q} : wp exec (rLatch k) Q s ↔
    ∃ n, s.latch k = .reading n ∧ Q () (s.setLatch k (.reading (n + 1))) := by
  apply Iff.trans (wp_perform (PageOp.rLatch k))
  simp only [exec]
  cases s.latch k <;> simp

@[simp] theorem wp_rUnlatch {Q} : wp exec (rUnlatch k) Q s ↔
    ∃ n, s.latch k = .reading (n + 1) ∧ Q () (s.setLatch k (.reading n)) := by
  apply Iff.trans (wp_perform (PageOp.rUnlatch k))
  simp only [exec]
  rcases s.latch k with (_ | n) | _ <;> simp

@[simp] theorem wp_wLatch {Q} : wp exec (wLatch k) Q s ↔
    s.latch k = .reading 0 ∧ Q () (s.setLatch k .writing) := by
  apply Iff.trans (wp_perform (PageOp.wLatch k))
  simp only [exec]
  split <;> simp [*]

@[simp] theorem wp_wUnlatch {Q} : wp exec (wUnlatch k) Q s ↔
    s.latch k = .writing ∧ Q () (s.setLatch k (.reading 0)) := by
  apply Iff.trans (wp_perform (PageOp.wUnlatch k))
  simp only [exec]
  split <;> simp [*]

end Rules

/-! ## What each call leaves, if it returns -/

section LiberalRules
variable {s : PageStore κ π ρ} {k : κ} {p : π} {d : Bool}

open Prog

@[simp] theorem wlp_fetchPage {Q} : wlp exec (fetchPage k) Q s ↔
    ∀ p, s.page k = some p → Q () (s.setPins k (s.pins k + 1)) := by
  apply Iff.trans (wlp_perform (PageOp.fetchPage k))
  simp only [exec]
  cases s.page k <;> simp

@[simp] theorem wlp_appendNewPage {Q} : wlp exec (appendNewPage k) Q s ↔
    (s.page k = none → Q () ((s.setPage k default).setPins k (s.pins k + 1))) := by
  apply Iff.trans (wlp_perform (PageOp.appendNewPage k))
  simp only [exec]
  cases s.page k <;> simp

@[simp] theorem wlp_unpinPage {Q} : wlp exec (unpinPage k d) Q s ↔
    (0 < s.pins k → Q () (s.setPins k (s.pins k - 1))) := by
  apply Iff.trans (wlp_perform (PageOp.unpinPage k d))
  simp only [exec]
  split <;> simp [*]

@[simp] theorem wlp_getData {Q : π → PageStore κ π ρ → Prop} : wlp exec (getData k) Q s ↔
    ∀ p, s.page k = some p → Q p s := by
  apply Iff.trans (wlp_perform (PageOp.getData k))
  simp only [exec]
  cases s.page k <;> simp

@[simp] theorem wlp_setData {Q} : wlp exec (setData k p) Q s ↔
    ∀ q, s.page k = some q → Q () (s.setPage k p) := by
  apply Iff.trans (wlp_perform (PageOp.setData k p))
  simp only [exec]
  cases s.page k <;> simp

@[simp] theorem wlp_getMember {Q : ρ → PageStore κ π ρ → Prop} :
    wlp exec getMember Q s ↔ Q s.member s := by
  apply Iff.trans (wlp_perform PageOp.getMember)
  simp [exec]

@[simp] theorem wlp_setMember {r : ρ} {Q} :
    wlp exec (setMember r) Q s ↔ Q () (s.withMember r) := by
  apply Iff.trans (wlp_perform (PageOp.setMember r))
  simp [exec]

@[simp] theorem wlp_rLatch {Q} : wlp exec (rLatch k) Q s ↔
    ∀ n, s.latch k = .reading n → Q () (s.setLatch k (.reading (n + 1))) := by
  apply Iff.trans (wlp_perform (PageOp.rLatch k))
  simp only [exec]
  cases s.latch k <;> simp

@[simp] theorem wlp_rUnlatch {Q} : wlp exec (rUnlatch k) Q s ↔
    ∀ n, s.latch k = .reading (n + 1) → Q () (s.setLatch k (.reading n)) := by
  apply Iff.trans (wlp_perform (PageOp.rUnlatch k))
  simp only [exec]
  rcases s.latch k with (_ | n) | _ <;> simp

@[simp] theorem wlp_wLatch {Q} : wlp exec (wLatch k) Q s ↔
    (s.latch k = .reading 0 → Q () (s.setLatch k .writing)) := by
  apply Iff.trans (wlp_perform (PageOp.wLatch k))
  simp only [exec]
  split <;> simp [*]

@[simp] theorem wlp_wUnlatch {Q} : wlp exec (wUnlatch k) Q s ↔
    (s.latch k = .writing → Q () (s.setLatch k (.reading 0))) := by
  apply Iff.trans (wlp_perform (PageOp.wUnlatch k))
  simp only [exec]
  split <;> simp [*]

end LiberalRules

end PageStore

end MisakiDB
