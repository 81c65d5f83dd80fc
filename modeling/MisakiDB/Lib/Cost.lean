import MisakiDB.Lib.Program
/-!
# What a run of a program costs

`counted c h` runs a program as `h` does and counts the operations that `c` picks.
`Approx p q` says that `q` ends as `p` wherever `p` ends, whatever runs them: a
walk with more fuel. So a bound on what a walk with little fuel costs holds of the
same walk with more, when the little is enough.
-/

namespace MisakiDB

namespace Prog

variable {Op : Type} {Res : Op → Type} {α β σ : Type}

/-- What comes after a part that only reads. -/
theorem wlp.read {h : Handler Op Res σ} {s : σ} {p : Prog Op Res α} {f : α → Prog Op Res β} {R : α → Prop}
    {Q : β → σ → Prop} (hp : wlp h p (fun a s' => R a ∧ s' = s) s) (hf : ∀ a, R a → wlp h (f a) Q s) :
    wlp h (p >>= f) Q s := by
  refine hp.seq fun a s' ha => ?_
  obtain ⟨ha, rfl⟩ := ha
  exact hf a ha

/-! ## Counting -/

/-- A handler that also counts the operations that `c` picks. -/
def counted (c : Op → Bool) (h : Handler Op Res σ) : Handler Op Res (σ × Nat) :=
  fun o t => (h o t.1).map fun r => (r.1, r.2, if c o then t.2 + 1 else t.2)

variable {c : Op → Bool} {h : Handler Op Res σ} {s : σ} {n : Nat}

/-- Counting does not change what a program ends in. -/
theorem run_counted {p : Prog Op Res α} {r : α × σ} (hr : run h p s = some r) :
    ∃ m, run (counted c h) p (s, n) = some (r.1, r.2, m) := by
  induction p generalizing s n with
  | ret a =>
    obtain rfl : (a, s) = r := Option.some.inj hr
    exact ⟨n, rfl⟩
  | call o k ih =>
    simp only [run] at hr ⊢
    rcases ho : h o s with _ | ⟨x, t⟩
    · simp [ho] at hr
    · simp only [ho] at hr
      obtain ⟨m, hm⟩ := ih x hr (n := if c o then n + 1 else n)
      exact ⟨m, by simpa [counted, ho] using hm⟩
  | fail => simp [run] at hr

theorem wlp_counted_perform (o : Op) {Q : Res o → σ × Nat → Prop} : wlp (counted c h) (perform o) Q (s, n) ↔
    wlp h (perform o) (fun r t => Q r (t, if c o then n + 1 else n)) s := by
  rw [wlp_perform, wlp_perform]
  constructor
  · intro hQ x hx
    exact hQ (x.1, x.2, _) (by simp [counted, hx])
  · intro hQ x hx
    obtain ⟨y, hy, rfl⟩ := Option.map_eq_some_iff.1 hx
    exact hQ y hy

/-! ## More fuel -/

/-- Where `p` ends, `q` ends in the same. -/
def Approx (p q : Prog Op Res α) : Prop :=
  ∀ (σ : Type) (h : Handler Op Res σ) (s : σ) (r : α × σ), run h p s = some r → run h q s = some r

theorem Approx.rfl {p : Prog Op Res α} : Approx p p := fun _ _ _ _ hr => hr

theorem Approx.trans {p q w : Prog Op Res α} (hpq : Approx p q) (hqw : Approx q w) : Approx p w :=
  fun σ h s r hr => hqw σ h s r (hpq σ h s r hr)

theorem Approx.fail (q : Prog Op Res α) : Approx fail q := by
  intro σ h s r hr
  simp [run] at hr

theorem Approx.bind {p q : Prog Op Res α} {f g : α → Prog Op Res β} (hp : Approx p q) (hf : ∀ a, Approx (f a) (g a)) :
    Approx (p >>= f) (q >>= g) := by
  intro σ h s r hr
  rw [run_bind] at hr ⊢
  obtain ⟨x, hx, hr⟩ := Option.bind_eq_some_iff.1 hr
  rw [hp σ h s x hx]
  exact hf x.1 σ h x.2 r hr

/-- Only what comes after a part differs. -/
theorem Approx.after (p : Prog Op Res α) {f g : α → Prog Op Res β} (hf : ∀ a, Approx (f a) (g a)) :
    Approx (p >>= f) (p >>= g) := Approx.rfl.bind hf

theorem Approx.ite {c : Prop} [Decidable c] {p p' q q' : Prog Op Res α} (hp : Approx p p') (hq : Approx q q') :
    Approx (if c then p else q) (if c then p' else q') := by
  split
  · exact hp
  · exact hq

/-- A bound on the cost of a run that ends is one for every better run. -/
theorem Approx.cost {p q : Prog Op Res α} (hpq : Approx p q) {Q : α → σ → Prop} {b : Nat} (hp : wp h p Q s)
    (hb : wlp (counted c h) p (fun _ t => t.2 ≤ b) (s, n)) :
    wp (counted c h) q (fun a t => Q a t.1 ∧ t.2 ≤ b) (s, n) := by
  obtain ⟨a, s', hr, hq⟩ := hp
  obtain ⟨m, hm⟩ := run_counted (c := c) (n := n) hr
  exact ⟨a, (s', m), hpq _ _ _ _ hm, hq, hb _ _ hm⟩

end Prog

end MisakiDB
