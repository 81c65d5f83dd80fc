import Mathlib.Logic.Function.Basic
/-!
# Programs over an interface, and what they compute

A program of type `Prog Op Res α` calls operations `o : Op`, each answered by a
value of `Res o`, and ends in a value of `α` or fails (a broken assertion, an
exception). A `Handler` says what the operations do on a state. The same
program can be run by several handlers.

`wp h p Q s` says that `p`, run by `h` from `s`, ends in a value and a state
that meet `Q`: it is total correctness, so a failing run meets no `Q`.
-/

namespace MisakiDB

inductive Prog (Op : Type) (Res : Op → Type) (α : Type) : Type
  | ret (a : α)
  | call (o : Op) (k : Res o → Prog Op Res α)
  | fail

namespace Prog

variable {Op : Type} {Res : Op → Type} {α β σ : Type}

def bind : Prog Op Res α → (α → Prog Op Res β) → Prog Op Res β
  | ret a, f => f a
  | call o k, f => call o fun r => (k r).bind f
  | fail, _ => fail

instance : Monad (Prog Op Res) where
  pure := ret
  bind := bind

/-- The program that is one operation. -/
def perform (o : Op) : Prog Op Res (Res o) := call o ret

/-- What each operation does on a state. -/
abbrev Handler (Op : Type) (Res : Op → Type) (σ : Type) := (o : Op) → σ → Option (Res o × σ)

def run (h : Handler Op Res σ) : Prog Op Res α → σ → Option (α × σ)
  | ret a, s => some (a, s)
  | call o k, s =>
    match h o s with
    | some (r, s') => (k r).run h s'
    | none => none
  | fail, _ => none

variable (h : Handler Op Res σ)

theorem run_bind (p : Prog Op Res α) (f : α → Prog Op Res β) (s : σ) :
    run h (p >>= f) s = (run h p s).bind fun r => run h (f r.1) r.2 := by
  show run h (p.bind f) s = _
  induction p generalizing s with
  | ret a => rfl
  | call o k ih =>
    simp only [bind, run]
    rcases h o s with _ | ⟨r, s'⟩
    · rfl
    · exact ih r s'
  | fail => rfl

theorem bind_assoc {γ : Type} (p : Prog Op Res α) (f : α → Prog Op Res β) (g : β → Prog Op Res γ) :
    p >>= f >>= g = p >>= fun a => f a >>= g := by
  show (p.bind f).bind g = p.bind fun a => (f a).bind g
  induction p with
  | ret a => rfl
  | call o k ih =>
    simp only [bind]
    congr 1
    funext r
    exact ih r
  | fail => rfl

theorem pure_bind (a : α) (f : α → Prog Op Res β) : pure a >>= f = f a := rfl

/-- A handler that answers whenever another does, and then the same. -/
theorem run_mono {h h' : Handler Op Res σ} (hle : ∀ o s r, h o s = some r → h' o s = some r) {p : Prog Op Res α} {s : σ}
    {r : α × σ} (hr : run h p s = some r) : run h' p s = some r := by
  induction p generalizing s with
  | ret a => exact hr
  | call o k ih =>
    simp only [run] at hr ⊢
    rcases ho : h o s with _ | ⟨x, t⟩
    · simp [ho] at hr
    · rw [ho] at hr
      rw [hle o s _ ho]
      exact ih x hr
  | fail => exact hr

/-- Only some of the operations are called. -/
inductive Uses (allowed : Op → Prop) : Prog Op Res α → Prop
  | ret (a : α) : Uses allowed (ret a)
  | call {o : Op} {k : Res o → Prog Op Res α} : allowed o → (∀ r, Uses allowed (k r)) → Uses allowed (call o k)
  | fail : Uses allowed fail

theorem Uses.perform {allowed : Op → Prop} {o : Op} (ho : allowed o) :
    Uses allowed (perform o : Prog Op Res (Res o)) := .call ho .ret

theorem Uses.bind {allowed : Op → Prop} {p : Prog Op Res α} {f : α → Prog Op Res β} (hp : Uses allowed p)
    (hf : ∀ a, Uses allowed (f a)) : Uses allowed (p >>= f) := by
  show Uses allowed (p.bind f)
  induction hp with
  | ret a => exact hf a
  | call ho _ ih => exact .call ho ih
  | fail => exact .fail

theorem Uses.imp {allowed allowed' : Op → Prop} (hle : ∀ o, allowed o → allowed' o) {p : Prog Op Res α}
    (hp : Uses allowed p) : Uses allowed' p := by
  induction hp with
  | ret a => exact .ret a
  | call ho _ ih => exact .call (hle _ ho) ih
  | fail => exact .fail

/-- Two states that the operations of a program do not tell apart. -/
theorem run_map {allowed : Op → Prop} {f : σ → σ} {h : Handler Op Res σ}
    (hf : ∀ o s, allowed o → h o (f s) = (h o s).map fun r => (r.1, f r.2)) {p : Prog Op Res α} (hp : Uses allowed p)
    (s : σ) : run h p (f s) = (run h p s).map fun r => (r.1, f r.2) := by
  induction hp generalizing s with
  | ret a => rfl
  | @call o k ho _ ih =>
    simp only [run, hf o s ho]
    rcases h o s with _ | ⟨r, t⟩
    · rfl
    · exact ih r t
  | fail => rfl

/-! ## Weakest preconditions -/

def wp (p : Prog Op Res α) (Q : α → σ → Prop) (s : σ) : Prop :=
  ∃ a s', run h p s = some (a, s') ∧ Q a s'

variable {h} {Q Q' : α → σ → Prop} {s : σ}

@[simp] theorem wp_pure (a : α) : wp h (pure a) Q s ↔ Q a s := by
  refine ⟨?_, fun hq => ⟨a, s, rfl, hq⟩⟩
  rintro ⟨b, s', hr, hq⟩
  simp only [Pure.pure, run, Option.some.injEq, Prod.mk.injEq] at hr
  obtain ⟨rfl, rfl⟩ := hr
  exact hq

@[simp] theorem wp_fail : ¬ wp h fail Q s := by
  rintro ⟨b, s', hr, -⟩
  simp [run] at hr

@[simp] theorem wp_bind {Q : β → σ → Prop} (p : Prog Op Res α) (f : α → Prog Op Res β) :
    wp h (p >>= f) Q s ↔ wp h p (fun a s' => wp h (f a) Q s') s := by
  constructor
  · rintro ⟨b, s'', hr, hq⟩
    rw [run_bind, Option.bind_eq_some_iff] at hr
    obtain ⟨⟨a, s'⟩, hp, hf⟩ := hr
    exact ⟨a, s', hp, b, s'', hf, hq⟩
  · rintro ⟨a, s', hp, b, s'', hf, hq⟩
    exact ⟨b, s'', by rw [run_bind, hp]; exact hf, hq⟩

theorem wp_perform (o : Op) {Q : Res o → σ → Prop} :
    wp h (perform o) Q s ↔ ∃ x, h o s = some x ∧ Q x.1 x.2 := by
  constructor
  · rintro ⟨a, s', hr, hq⟩
    rcases ho : h o s with _ | ⟨r, t⟩
    · simp [perform, run, ho] at hr
    · simp only [perform, run, ho, Option.some.injEq, Prod.mk.injEq] at hr
      obtain ⟨rfl, rfl⟩ := hr
      exact ⟨_, rfl, hq⟩
  · rintro ⟨⟨r, s'⟩, ho, hq⟩
    exact ⟨r, s', by simp [perform, run, ho], hq⟩

@[simp] theorem wp_ite (c : Prop) [Decidable c] (p q : Prog Op Res α) :
    wp h (if c then p else q) Q s ↔ if c then wp h p Q s else wp h q Q s := by
  split <;> rfl

theorem wp_conseq {p : Prog Op Res α} (hp : wp h p Q s) (hq : ∀ a s', Q a s' → Q' a s') : wp h p Q' s := by
  obtain ⟨a, s', hr, h'⟩ := hp
  exact ⟨a, s', hr, hq a s' h'⟩

/-- A run is deterministic, so what `wp` promises holds of the run's result. -/
theorem wp_run {p : Prog Op Res α} {a : α} {s' : σ} (hp : wp h p Q s) (hr : run h p s = some (a, s')) :
    Q a s' := by
  obtain ⟨b, t, ht, hq⟩ := hp
  rw [hr, Option.some.injEq, Prod.mk.injEq] at ht
  obtain ⟨rfl, rfl⟩ := ht
  exact hq

theorem wp_of_run {p : Prog Op Res α} {a : α} {s' : σ} (hr : run h p s = some (a, s')) : wp h p Q s ↔ Q a s' :=
  ⟨fun hp => wp_run hp hr, fun hq => ⟨a, s', hr, hq⟩⟩

theorem run_eq_iff {p : Prog Op Res α} {a : α} {s' : σ} :
    run h p s = some (a, s') ↔ wp h p (fun b t => b = a ∧ t = s') s := by
  constructor
  · intro hr
    exact ⟨a, s', hr, rfl, rfl⟩
  · rintro ⟨b, t, hr, rfl, rfl⟩
    exact hr

/-- Two runs that meet the same postconditions are the same. -/
theorem run_ext {p q : Prog Op Res α} {t : σ} (hq : ∀ Q, wp h p Q s ↔ wp h q Q t) : run h p s = run h q t := by
  apply Option.ext
  rintro ⟨a, s'⟩
  rw [run_eq_iff, run_eq_iff]
  exact hq _

/-! ## Weakest liberal preconditions

`wlp h p Q s` says that whatever `p` ends in, run by `h` from `s`, meets `Q`. A run
that fails, or blocks, meets every `Q`. -/

variable (h) in
def wlp (p : Prog Op Res α) (Q : α → σ → Prop) (s : σ) : Prop :=
  ∀ a s', run h p s = some (a, s') → Q a s'

@[simp] theorem wlp_pure (a : α) : wlp h (pure a) Q s ↔ Q a s := by
  constructor
  · intro hq
    exact hq a s rfl
  · intro hq b s' hr
    simp only [Pure.pure, run, Option.some.injEq, Prod.mk.injEq] at hr
    obtain ⟨rfl, rfl⟩ := hr
    exact hq

@[simp] theorem wlp_fail : wlp h fail Q s := by
  intro b s' hr
  simp [run] at hr

@[simp] theorem wlp_bind {Q : β → σ → Prop} (p : Prog Op Res α) (f : α → Prog Op Res β) :
    wlp h (p >>= f) Q s ↔ wlp h p (fun a s' => wlp h (f a) Q s') s := by
  constructor
  · intro hq a s' hp b s'' hf
    apply hq
    rw [run_bind, hp]
    exact hf
  · intro hq b s'' hr
    rw [run_bind, Option.bind_eq_some_iff] at hr
    obtain ⟨⟨a, s'⟩, hp, hf⟩ := hr
    exact hq a s' hp b s'' hf

theorem wlp.seq {Q' : β → σ → Prop} {p : Prog Op Res α} {f : α → Prog Op Res β} (hp : wlp h p Q s)
    (hf : ∀ a s', Q a s' → wlp h (f a) Q' s') : wlp h (p >>= f) Q' s :=
  (wlp_bind p f).2 fun a s' hr => hf a s' (hp a s' hr)

/-- Both parts of what the first program ends in go to the second. -/
theorem wlp.seq_and {Q' : β → σ → Prop} {A B : α → σ → Prop} {p : Prog Op Res α} {f : α → Prog Op Res β}
    (hp : wlp h p (fun a s' => A a s' ∧ B a s') s) (hf : ∀ a s', A a s' → B a s' → wlp h (f a) Q' s') :
    wlp h (p >>= f) Q' s :=
  hp.seq fun a s' hr => hf a s' hr.1 hr.2

theorem wlp_perform (o : Op) {Q : Res o → σ → Prop} :
    wlp h (perform o) Q s ↔ ∀ x, h o s = some x → Q x.1 x.2 := by
  constructor
  · intro hq x hx
    apply hq
    simp [perform, run, hx]
  · intro hq a s' hr
    rcases ho : h o s with _ | ⟨r, t⟩
    · simp [perform, run, ho] at hr
    · simp only [perform, run, ho, Option.some.injEq, Prod.mk.injEq] at hr
      obtain ⟨rfl, rfl⟩ := hr
      exact hq _ ho

@[simp] theorem wlp_ite (c : Prop) [Decidable c] (p q : Prog Op Res α) :
    wlp h (if c then p else q) Q s ↔ if c then wlp h p Q s else wlp h q Q s := by
  split <;> rfl

theorem wlp_of_wp {p : Prog Op Res α} (hp : wp h p Q s) : wlp h p Q s := fun _ _ hr => wp_run hp hr

/-- A run that ends ends as both say. -/
theorem wp_and_wlp {p : Prog Op Res α} (hp : wp h p Q s) (hp' : wlp h p Q' s) :
    wp h p (fun a s' => Q a s' ∧ Q' a s') s := by
  obtain ⟨a, s', hr, hq⟩ := hp
  exact ⟨a, s', hr, hq, hp' a s' hr⟩

theorem wlp_and {p : Prog Op Res α} (hp : wlp h p Q s) (hp' : wlp h p Q' s) :
    wlp h p (fun a s' => Q a s' ∧ Q' a s') s :=
  fun a s' hr => ⟨hp a s' hr, hp' a s' hr⟩

theorem wlp_conseq {p : Prog Op Res α} (hp : wlp h p Q s) (hq : ∀ a s', Q a s' → Q' a s') : wlp h p Q' s :=
  fun a s' hr => hq a s' (hp a s' hr)

end Prog

end MisakiDB
