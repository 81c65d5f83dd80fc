import Mathlib.Algebra.BigOperators.Group.Finset.Basic
/-!
# Runs of a labelled step system

A system is a predicate `init` on states and a relation `step s e s'`, where
`e` names the step (the call, the thread, the message). `Reach` is the set of
states some finite run visits. A property of every run is a `Reach` statement:
it is proved by `Reach.inv` from what one step preserves.
-/

namespace MisakiDB.Runs

variable {σ ε : Type}

/-- States visited by the runs that start in `init`. -/
inductive Reach (init : σ → Prop) (step : σ → ε → σ → Prop) : σ → Prop
  | start {s} : init s → Reach init step s
  | next {s e s'} : Reach init step s → step s e s' → Reach init step s'

variable {init : σ → Prop} {step : σ → ε → σ → Prop}

/-- An invariant that holds at the start and that every step keeps holds in
every state visited. -/
theorem Reach.inv {I : σ → Prop} (h0 : ∀ s, init s → I s)
    (hs : ∀ s e s', I s → step s e s' → I s') {s : σ} (h : Reach init step s) : I s := by
  induction h with
  | start hi => exact h0 _ hi
  | next _ hst ih => exact hs _ _ _ ih hst

/-- What a part of a system's steps reaches, the system reaches. -/
theorem Reach.mono {step' : σ → ε → σ → Prop} (hle : ∀ s e s', step s e s' → step' s e s') {s : σ}
    (h : Reach init step s) :
    Reach init step' s := by
  induction h with
  | start hi => exact .start hi
  | next _ hst ih => exact ih.next (hle _ _ _ hst)

/-- The steps of a system that meet a condition on the step and the state
before it. -/
def Restrict (step : σ → ε → σ → Prop) (ok : σ → ε → Prop) (s : σ) (e : ε) (s' : σ) : Prop :=
  ok s e ∧ step s e s'

/-! ## Paths -/

/-- A run from one state to another, with its steps and the state after each. -/
inductive Path (step : σ → ε → σ → Prop) (s : σ) : List (ε × σ) → σ → Prop
  | nil : Path step s [] s
  | snoc {l s' e s''} : Path step s l s' → step s' e s'' → Path step s (l ++ [(e, s'')]) s''

theorem Path.one {s s' : σ} {e : ε} (h : step s e s') : Path step s [(e, s')] s' := .snoc .nil h

theorem Path.reach {s s' : σ} {l : List (ε × σ)} (h : Path step s l s') (hs : Reach init step s) :
    Reach init step s' := by
  induction h with
  | nil => exact hs
  | snoc _ hstep ih => exact .next ih hstep

/-- The last state is among those visited. -/
theorem Path.last_mem {s s' : σ} {l : List (ε × σ)} (h : Path step s l s') : s' ∈ s :: l.map Prod.snd := by
  cases h <;> simp

/-- A path of a restricted system is one of the whole system. -/
theorem Path.mono {step' : σ → ε → σ → Prop} (hle : ∀ s e s', step s e s' → step' s e s') {s s' : σ}
    {l : List (ε × σ)} (h : Path step s l s') : Path step' s l s' := by
  induction h with
  | nil => exact .nil
  | snoc _ hstep ih => exact .snoc ih (hle _ _ _ hstep)

theorem Path.append {s s' s'' : σ} {l l' : List (ε × σ)} (h : Path step s l s') (h' : Path step s' l' s'') :
    Path step s (l ++ l') s'' := by
  induction h' with
  | nil => simpa using h
  | snoc _ hstep ih =>
    rw [← List.append_assoc]
    exact .snoc ih hstep

/-- Every step costs something, but for some that add no more than `k`: so a run is no longer
than what there is at its start and what those add. -/
theorem Path.length_le {I : σ → Prop} {cost : σ → Nat} {adds : ε → Bool} {k : Nat}
    (hI : ∀ s e s', I s → step s e s' → I s')
    (hlt : ∀ s e s', I s → step s e s' → adds e = false → cost s' < cost s)
    (hadd : ∀ s e s', I s → step s e s' → adds e = true → cost s' ≤ cost s + k)
    {s s' : σ} {l : List (ε × σ)} (h : Path step s l s') (hs : I s) :
    I s' ∧ l.length + cost s' ≤ cost s + (k + 1) * l.countP fun e => adds e.1 := by
  induction h with
  | nil => exact ⟨hs, by simp⟩
  | @snoc l s' e s'' _ hstep ih =>
    obtain ⟨hi, hle⟩ := ih
    refine ⟨hI _ _ _ hi hstep, ?_⟩
    rw [List.length_append, List.length_singleton, List.countP_append, List.countP_singleton, Nat.mul_add]
    cases he : adds e with
    | false =>
      have := hlt _ _ _ hi hstep he
      simp only [Bool.false_eq_true, if_false]
      omega
    | true =>
      have := hadd _ _ _ hi hstep he
      simp only [if_true]
      omega

/-! ## What is seen of a run -/

section Trace
variable {σ' ε' ω : Type} {step' : σ' → ε' → σ' → Prop}

/-- The labels of the steps that are seen. -/
def trace (see : ε → Option ω) (l : List (ε × σ)) : List ω := l.filterMap fun e => see e.1

@[simp] theorem trace_nil (see : ε → Option ω) : trace see ([] : List (ε × σ)) = [] := rfl

@[simp] theorem trace_append (see : ε → Option ω) (l l' : List (ε × σ)) :
    trace see (l ++ l') = trace see l ++ trace see l' :=
  List.filterMap_append

/-- A system whose every step another system answers by a path that looks the same: then
its runs look like runs of the other. -/
theorem Path.simulate {R : σ → σ' → Prop} {see : ε → Option ω} {see' : ε' → Option ω}
    (hstep : ∀ s e s' t, R s t → step s e s' →
      ∃ l t', Path step' t l t' ∧ trace see' l = trace see [(e, s')] ∧ R s' t')
    {s s' : σ} {l : List (ε × σ)} (h : Path step s l s') {t : σ'} (ht : R s t) :
    ∃ l' t', Path step' t l' t' ∧ trace see' l' = trace see l ∧ R s' t' := by
  induction h with
  | nil => exact ⟨[], t, .nil, rfl, ht⟩
  | snoc _ hs ih =>
    obtain ⟨l1, t1, hp1, htr1, hr1⟩ := ih
    obtain ⟨l2, t2, hp2, htr2, hr2⟩ := hstep _ _ _ t1 hr1 hs
    exact ⟨l1 ++ l2, t2, hp1.append hp2, by rw [trace_append, trace_append, htr1, htr2], hr2⟩

theorem trace_eq (see : ε → Option ω) (l : List (ε × σ)) : trace see l = (l.map Prod.fst).filterMap see := by
  rw [trace, List.filterMap_map]
  rfl

end Trace

/-! ## Runs that are computed -/

/-- Where a system with one next state at most for each label comes, if the steps it takes on
its way are allowed. -/
def follow (next : σ → ε → Option σ) (ok : σ → ε → Bool) : List ε → σ → Option σ
  | [], s => some s
  | e :: es, s => if ok s e then (next s e).bind (follow next ok es) else none

theorem path_of_follow {next : σ → ε → Option σ} {ok : σ → ε → Bool}
    (hstep : ∀ s e s', ok s e = true → next s e = some s' → step s e s') {es : List ε} {s s' : σ}
    (h : follow next ok es s = some s') : ∃ l, Path step s l s' ∧ l.map Prod.fst = es := by
  induction es generalizing s with
  | nil =>
    obtain rfl : s = s' := Option.some.inj h
    exact ⟨[], .nil, rfl⟩
  | cons e es ih =>
    rw [follow] at h
    split at h
    · rename_i hok
      obtain ⟨s1, hnext, hrest⟩ := Option.bind_eq_some_iff.1 h
      obtain ⟨l, hp, hl⟩ := ih hrest
      have hone : Path step s [(e, s1)] s1 := .one (hstep s e s1 hok hnext)
      exact ⟨_, hone.append hp, by simp [hl]⟩
    · cases h

theorem reach_of_follow {next : σ → ε → Option σ} {ok : σ → ε → Bool}
    (hstep : ∀ s e s', ok s e = true → next s e = some s' → step s e s') {es : List ε} {s s' : σ}
    (hs : Reach init step s) (h : follow next ok es s = some s') : Reach init step s' := by
  obtain ⟨l, hp, -⟩ := path_of_follow hstep h
  exact hp.reach hs

/-! ## Sums over processes -/

section Sum
variable {τ α : Type} [Fintype τ] [DecidableEq τ]

/-- One process changes its state: the total changes by what it counted for. -/
theorem sum_update (f : α → Nat) (phase : τ → α) (t : τ) (x : α) :
    (∑ u, f (Function.update phase t x u)) + f (phase t) = (∑ u, f (phase u)) + f x := by
  have hrest : ∑ u ∈ Finset.univ.erase t, f (Function.update phase t x u) = ∑ u ∈ Finset.univ.erase t, f (phase u) := by
    apply Finset.sum_congr rfl
    intro u hu
    rw [Function.update_of_ne (Finset.ne_of_mem_erase hu)]
  rw [← Finset.add_sum_erase _ _ (Finset.mem_univ t),
    ← Finset.add_sum_erase _ (fun u => f (phase u)) (Finset.mem_univ t), hrest, Function.update_self]
  omega

theorem le_sum (f : α → Nat) (phase : τ → α) (t : τ) : f (phase t) ≤ ∑ u, f (phase u) := by
  rw [← Finset.add_sum_erase _ (fun u => f (phase u)) (Finset.mem_univ t)]
  exact Nat.le_add_right _ _

end Sum

end MisakiDB.Runs
