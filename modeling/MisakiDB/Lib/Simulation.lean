import MisakiDB.Lib.Program
/-!
# Two programs side by side

`Simulates` says of two programs, each with a handler and a state of its own, that
whenever the first ends the second ends too, in values and states that fit together.
The rules follow the two programs in step.
-/

namespace MisakiDB.Prog

variable {Op Op' : Type} {Res : Op → Type} {Res' : Op' → Type} {α α' β β' σ τ : Type}

def Simulates (h : Handler Op Res σ) (h' : Handler Op' Res' τ) (p : Prog Op Res α) (q : Prog Op' Res' β)
    (Q : α → σ → β → τ → Prop) (s : σ) (t : τ) : Prop :=
  wlp h p (fun a s' => wp h' q (fun b t' => Q a s' b t') t) s

namespace Simulates
variable {h : Handler Op Res σ} {h' : Handler Op' Res' τ} {p : Prog Op Res α} {q : Prog Op' Res' β} {s : σ} {t : τ}
  {Q Q' : α → σ → β → τ → Prop}

theorem pure {a : α} {b : β} (hq : Q a s b t) : Simulates h h' (Pure.pure a) (Pure.pure b) Q s t :=
  (wlp_pure a).2 ((wp_pure b).2 hq)

/-- A run that fails promises nothing. -/
theorem fail : Simulates h h' Prog.fail q Q s t := wlp_fail

theorem seq {R : α' → σ → β' → τ → Prop} {p' : Prog Op Res α'} {q' : Prog Op' Res' β'} {f : α' → Prog Op Res α}
    {g : β' → Prog Op' Res' β} (hp : Simulates h h' p' q' R s t)
    (hf : ∀ a s' b t', R a s' b t' → Simulates h h' (f a) (g b) Q s' t') :
    Simulates h h' (p' >>= f) (q' >>= g) Q s t := by
  intro a s' hrun
  rw [run_bind, Option.bind_eq_some_iff] at hrun
  obtain ⟨⟨a1, s1⟩, hp1, hf1⟩ := hrun
  obtain ⟨b1, t1, hq1, hr⟩ := hp a1 s1 hp1
  rw [wp_bind]
  exact ⟨b1, t1, hq1, hf a1 s1 b1 t1 hr a s' hf1⟩

theorem conseq (hp : Simulates h h' p q Q s t) (hq : ∀ a s' b t', Q a s' b t' → Q' a s' b t') :
    Simulates h h' p q Q' s t :=
  wlp_conseq hp fun a s' hw => wp_conseq hw fun b t' => hq a s' b t'

/-- Both take the same branch. -/
theorem ite {c c' : Prop} [Decidable c] [Decidable c'] {p1 p2 : Prog Op Res α} {q1 q2 : Prog Op' Res' β} (hc : c ↔ c')
    (h1 : c → Simulates h h' p1 q1 Q s t) (h2 : ¬ c → Simulates h h' p2 q2 Q s t) :
    Simulates h h' (if c then p1 else p2) (if c' then q1 else q2) Q s t := by
  by_cases hcase : c
  · rw [if_pos hcase, if_pos (hc.1 hcase)]
    exact h1 hcase
  · rw [if_neg hcase, if_neg fun hc' => hcase (hc.2 hc')]
    exact h2 hcase

/-- Only the second program takes a step. -/
theorem right {q' : Prog Op' Res' β'} {g : β' → Prog Op' Res' β} {b : β'} {t' : τ} (hq : run h' q' t = some (b, t'))
    (hp : Simulates h h' p (g b) Q s t') : Simulates h h' p (q' >>= g) Q s t := by
  intro a s' hrun
  rw [wp_bind]
  exact ⟨b, t', hq, hp a s' hrun⟩

theorem run {a : α} {s' : σ} (hp : Simulates h h' p q Q s t) (hr : Prog.run h p s = some (a, s')) :
    ∃ b t', Prog.run h' q t = some (b, t') ∧ Q a s' b t' :=
  hp a s' hr

end Simulates

end MisakiDB.Prog
