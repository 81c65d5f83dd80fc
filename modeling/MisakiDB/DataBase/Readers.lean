import MisakiDB.DataBase.Threads
/-!
# What a reader sees while a key is replaced

`set` is remove and insert: between the two the key is absent, and a reader that
looks then finds nothing (`exist_sees_gap`). From a state in which the key has a
value, while only sets write it: a call that overlaps no set of the key finds it, and
a value that is read is the one the key had when the call began, or that of a set that
overlaps the call (`readers`).
-/

namespace MisakiDB.DataBase.Threads

open Runs

/-- The client is in a `set` of the value on the key. -/
def Setting (k : RecordKey) (v : Value) : Phase → Prop
  | .set k' v' | .setRemoveRecord k' v' _ | .setInsertRecord k' v' | .setInsert k' v' _ | .setUndo k' v' _ =>
    k' = k ∧ v' = v
  | _ => False

/-- The client has taken the key's entry out, or found none, and has yet to enter its own. -/
def Between (k : RecordKey) : Phase → Prop
  | .setRemoveRecord k' _ _ | .setInsertRecord k' _ | .setInsert k' _ _ => k' = k
  | _ => False

section
variable {τ : Type} [DecidableEq τ]

/-- The value a key has. -/
def valueOf (s : State τ) (k : RecordKey) : Option Value := (s.index k).bind fun id => (s.records id).map Prod.snd

/-- Every writer of the key is a `set`: no `remove` takes its entry out. -/
def SetsOnly (k : RecordKey) (s : State τ) (e : Event τ) : Prop := ∀ t, e = .act t → s.phase t ≠ .remove k

variable {s s' s₀ s₁ s₂ : State τ} {k : RecordKey} {t : τ}

theorem between_setting {x : Phase} (h : Between k x) : ∃ v, Setting k v x := by
  cases x <;> simp_all [Between, Setting]

/-! ## The key is there unless a set is between its two halves -/

def Kept (k : RecordKey) (s : State τ) : Prop := s.index k ≠ none ∨ ∃ u, Between k (s.phase u)

/-- A client that stays between keeps the key kept. -/
theorem kept_of_between {x : Phase} (hx : Between k x) : Kept k (s.goto t x) :=
  .inr ⟨t, by rwa [State.goto_phase, Function.update_self]⟩

/-- A step of a client that was not between, that leaves the entry. -/
theorem Kept.goto {x : Phase} (h : Kept k s) (ht : ¬ Between k (s.phase t)) : Kept k (s.goto t x) := by
  rcases h with h | ⟨u, hu⟩
  · exact .inl h
  · have hut : u ≠ t := by
      rintro rfl
      exact ht hu
    exact .inr ⟨u, by rwa [State.goto_phase, Function.update_of_ne hut]⟩

omit [DecidableEq τ] in
theorem Kept.setIndex {k' : RecordKey} {o : Option RecordIDType} (h : Kept k s) (hk : k' ≠ k) :
    Kept k (s.setIndex k' o) := by
  rcases h with h | h
  · exact .inl (by rwa [State.setIndex_index, Function.update_of_ne hk.symm])
  · exact .inr h

theorem Kept.step (h : Kept k s) {e : Event τ} (hok : SetsOnly k s e) (hstep : Step s e s') : Kept k s' := by
  cases hstep with
  | call ht => exact h.goto (by rw [ht]; exact id)
  | ret ht => exact h.goto (by rw [ht]; exact id)
  | @act t s' ha =>
    have hremove := hok t rfl
    generalize hp : s.phase t = p at ha hremove
    have hbetween : Between k (s.phase t) ↔ Between k p := by rw [hp]
    cases ha with
    | get => exact h.goto (by rw [hbetween]; exact id)
    | getRecordValue => exact h.goto (by rw [hbetween]; exact id)
    | exist => exact h.goto (by rw [hbetween]; exact id)
    | removeNone _ => exact h.goto (by rw [hbetween]; exact id)
    | @remove k' _ _ =>
      have hk : k' ≠ k := fun heq => hremove (by rw [heq])
      exact (h.setIndex hk).goto (by rw [State.setIndex_phase, hbetween]; exact id)
    | removeRecord => exact Kept.goto (s := s.setRecord _ _) h (by rw [State.setRecord_phase, hbetween]; exact id)
    -- a `set` of the key itself is what opens the gap
    | @setNone k' v _ =>
      by_cases hk : k' = k
      · exact kept_of_between hk
      · exact h.goto (by rw [hbetween]; exact id)
    | @set k' v _ _ =>
      by_cases hk : k' = k
      · exact kept_of_between hk
      · exact (h.setIndex hk).goto (by rw [State.setIndex_phase, hbetween]; exact id)
    | @setRemoveRecord k' v id =>
      by_cases hk : k' = k
      · exact kept_of_between hk
      · exact Kept.goto (s := s.setRecord _ _) h (by rw [State.setRecord_phase, hbetween]; exact hk)
    | @setInsertRecord k' v id _ =>
      by_cases hk : k' = k
      · exact kept_of_between hk
      · exact Kept.goto (s := s.setRecord _ _) h (by rw [State.setRecord_phase, hbetween]; exact hk)
    | @setInsert k' v id _ =>
      by_cases hk : k' = k
      · exact .inl (by simp [hk])
      · exact (h.setIndex hk).goto (by rw [State.setIndex_phase, hbetween]; exact hk)
    | @setInsertTaken k' v id hne =>
      by_cases hk : k' = k
      · exact .inl (by rwa [State.goto_index, ← hk])
      · exact h.goto (by rw [hbetween]; exact hk)
    | setUndo => exact Kept.goto (s := s.setRecord _ _) h (by rw [State.setRecord_phase, hbetween]; exact id)

theorem Kept.path {l : List (Event τ × State τ)} (h : Kept k s) (hpath : Path (Restrict Step (SetsOnly k)) s l s') :
    Kept k s' := by
  induction hpath with
  | nil => exact h
  | snoc _ hstep ih => exact ih.step hstep.1 hstep.2

/-! ## What is read -/

/-- What an entry leads to, it led to before, unless a set has just entered it. -/
theorem entry_of_step (h : Owned s) {e : Event τ} (hstep : Step s e s') {id : RecordIDType} {v : Value}
    (hk : s'.index k = some id) (hv : s'.records id = some (k, v)) :
    (s.index k = some id ∧ s.records id = some (k, v)) ∨ ∃ u, Setting k v (s.phase u) := by
  obtain ⟨u, x, heff, -⟩ := effect_of_step hstep
  cases heff with
  | none _ => exact .inl ⟨hk, hv⟩
  | @take k' _ _ _ _ =>
    by_cases hkk : k = k'
    · simp [hkk] at hk
    · exact .inl ⟨by simpa [Function.update_of_ne hkk] using hk, hv⟩
  | @drop id' _ _ =>
    have hne : id ≠ id' := by
      rintro rfl
      simp at hv
    exact .inl ⟨hk, by simpa [Function.update_of_ne hne] using hv⟩
  | @insert _ _ id' hid _ _ =>
    have hne : id ≠ id' := by
      rintro rfl
      obtain ⟨v', hv'⟩ := h.entry k id hk
      simp [hid] at hv'
    exact .inl ⟨hk, by simpa [Function.update_of_ne hne] using hv⟩
  | @enter k' v' id' _ hu _ =>
    by_cases hkk : k = k'
    · subst hkk
      simp only [State.goto_index, State.setIndex_index, Function.update_self, Option.some.injEq] at hk
      subst hk
      have hv' := h.inserted u k v' id' hu
      simp only [State.goto_records, State.setIndex_records] at hv
      rw [hv, Option.some.injEq, Prod.mk.injEq] at hv'
      exact .inr ⟨u, by rw [hu]; exact ⟨rfl, hv'.2.symm⟩⟩
    · exact .inl ⟨by simpa [Function.update_of_ne hkk] using hk, hv⟩

/-- What a record is, it was before, unless a set has just inserted it. -/
theorem record_of_step {e : Event τ} (hstep : Step s e s') {id : RecordIDType} {v : Value}
    (hv : s'.records id = some (k, v)) : s.records id = some (k, v) ∨ ∃ u, Setting k v (s'.phase u) := by
  obtain ⟨u, x, heff, -⟩ := effect_of_step hstep
  cases heff with
  | none _ => exact .inl hv
  | take _ _ _ => exact .inl hv
  | @drop id' _ _ =>
    have hne : id ≠ id' := by
      rintro rfl
      simp at hv
    exact .inl (by simpa [Function.update_of_ne hne] using hv)
  | @insert k' v' id' _ _ hx =>
    by_cases hne : id = id'
    · subst hne
      simp only [State.goto_records, State.setRecord_records, Function.update_self, Option.some.injEq,
        Prod.mk.injEq] at hv
      obtain ⟨rfl, rfl⟩ := hv
      exact .inr ⟨u, by rw [State.goto_phase, Function.update_self, hx]; exact ⟨rfl, rfl⟩⟩
    · exact .inl (by simpa [Function.update_of_ne hne] using hv)
  | enter _ _ _ => exact .inl hv

/-- The values that a call begun in `s₁` may read, after the states visited. -/
def Allowed (s₁ : State τ) (k : RecordKey) (visited : List (State τ)) (v : Value) : Prop :=
  valueOf s₁ k = some v ∨ ∃ s ∈ visited, ∃ u, Setting k v (s.phase u)

/-- A `get` of the key is on its way to allowed values. -/
def Reading (s : State τ) (k : RecordKey) (allowed : Value → Prop) : Phase → Prop
  | .get k' => k' = k
  | .getRecordValue k' id => k' = k ∧ ∀ v, s.records id = some (k, v) → allowed v
  | .answered (.got r) => ∀ v, r = some v → allowed v
  | _ => False

structure Reads (s : State τ) (k : RecordKey) (t : τ) (allowed : Value → Prop) : Prop where
  entry : ∀ id v, s.index k = some id → s.records id = some (k, v) → allowed v
  reading : Reading s k allowed (s.phase t)

omit [DecidableEq τ] in
theorem recordValue_eq {id : RecordIDType} {v : Value} (h : s.recordValue k id = some v) :
    s.records id = some (k, v) := by
  unfold State.recordValue at h
  split at h
  · rename_i k' v' hrec
    split at h
    · rename_i hk
      rw [hrec, hk, Option.some.inj h]
    · simp at h
  · simp at h

/-- The step of the reader itself. -/
theorem Reads.act {allowed : Value → Prop} (h : Reads s k t allowed) (ha : Act s t (s.phase t) s') :
    Reading s' k allowed (s'.phase t) := by
  have hr := h.reading
  generalize s.phase t = p at ha hr
  cases ha with
  | @get k' =>
    obtain rfl : k' = k := hr
    rw [State.goto_phase, Function.update_self]
    rcases hk : s.index k' with _ | id
    · intro v hv
      simp at hv
    · exact ⟨rfl, fun v hv => h.entry id v hk hv⟩
  | @getRecordValue k' id =>
    obtain ⟨rfl, hid⟩ := hr
    rw [State.goto_phase, Function.update_self]
    exact fun v hv => hid v (recordValue_eq hv)
  | _ => exact absurd hr id

/-- The step of anybody else. -/
theorem reading_of_step {allowed allowed' : Value → Prop} {x : Phase} (hx : Reading s k allowed x)
    (hle : ∀ v, allowed v → allowed' v) {e : Event τ} (hstep : Step s e s')
    (hset : ∀ v u, Setting k v (s'.phase u) → allowed' v) : Reading s' k allowed' x := by
  cases x with
  | get k' => exact hx
  | getRecordValue k' id =>
    refine ⟨hx.1, fun v hv => ?_⟩
    rcases record_of_step hstep hv with hv | ⟨u, hu⟩
    · exact hle v (hx.2 v hv)
    · exact hset v u hu
  | answered a =>
    cases a with
    | got r => exact fun v hv => hle v (hx v hv)
    | _ => exact absurd hx id
  | _ => exact absurd hx id

/-- A client's phase changes by its own steps. -/
theorem phase_of_step (t : τ) {e : Event τ} (hstep : Step s e s') :
    Act s t (s.phase t) s' ∨ e = .ret t ∨ s'.phase t = s.phase t ∨ s.phase t = .idle := by
  cases hstep with
  | @call u c hu =>
    by_cases hut : u = t
    · exact .inr (.inr (.inr (hut ▸ hu)))
    · exact .inr (.inr (.inl (by rw [State.goto_phase, Function.update_of_ne (Ne.symm hut)])))
  | @ret u a hu =>
    by_cases hut : u = t
    · exact .inr (.inl (by rw [hut]))
    · exact .inr (.inr (.inl (by rw [State.goto_phase, Function.update_of_ne (Ne.symm hut)])))
  | @act u s' ha =>
    by_cases hut : u = t
    · exact .inl (hut ▸ ha)
    · refine .inr (.inr (.inl ?_))
      generalize s.phase u = p at ha
      cases ha <;> simp [Function.update_of_ne (Ne.symm hut)]

theorem Reads.step {allowed allowed' : Value → Prop} (h : Reads s k t allowed) (hown : Owned s) {e : Event τ}
    (hstep : Step s e s') (hret : e ≠ .ret t) (hle : ∀ v, allowed v → allowed' v)
    (hset : ∀ v u, Setting k v (s.phase u) ∨ Setting k v (s'.phase u) → allowed' v) : Reads s' k t allowed' := by
  refine ⟨fun id v hk hv => ?_, ?_⟩
  · rcases entry_of_step hown hstep hk hv with ⟨hk, hv⟩ | ⟨u, hu⟩
    · exact hle v (h.entry id v hk hv)
    · exact hset v u (.inl hu)
  · have hset' : ∀ v u, Setting k v (s'.phase u) → allowed' v := fun v u hu => hset v u (.inr hu)
    rcases phase_of_step t hstep with ha | hret' | hsame | hidle
    · -- the reader moved: what it reads is in the state it moved from
      have hr := h.act ha
      cases hx : s'.phase t with
      | get k' => rw [hx] at hr; exact hr
      | getRecordValue k' id =>
        rw [hx] at hr
        exact ⟨hr.1, fun v hv => hle v (hr.2 v hv)⟩
      | answered a =>
        rw [hx] at hr
        cases a with
        | got r => exact fun v hv => hle v (hr v hv)
        | _ => exact absurd hr id
      | _ => rw [hx] at hr; exact absurd hr id
    · exact absurd hret' hret
    · rw [hsame]
      exact reading_of_step h.reading hle hstep hset'
    · -- the reader is in a call
      have hr := h.reading
      rw [hidle] at hr
      exact absurd hr id

/-- The states visited by a run from `s`, with `s`. -/
def visited (s : State τ) (l : List (Event τ × State τ)) : List (State τ) := s :: l.map Prod.snd

omit [DecidableEq τ] in
theorem visited_snoc {l : List (Event τ × State τ)} {e : Event τ} :
    visited s (l ++ [(e, s')]) = visited s l ++ [s'] := by
  simp [visited]

theorem Reads.path (hown : Owned s₁) (hbegin : s₁.phase t = .get k) {l : List (Event τ × State τ)}
    (hpath : Path (Restrict Step (SetsOnly k)) s₁ l s₂) (hret : ∀ e ∈ l, e.1 ≠ .ret t) :
    Owned s₂ ∧ Reads s₂ k t (Allowed s₁ k (visited s₁ l)) := by
  induction hpath with
  | nil =>
    refine ⟨hown, fun id v hk hv => .inl ?_, ?_⟩
    · rw [valueOf, hk, Option.bind_some, hv]
      rfl
    · rw [hbegin]
      exact rfl
  | @snoc l s e s' hpath hstep ih =>
    obtain ⟨hown', hreads⟩ := ih fun e he => hret e (List.mem_append_left _ he)
    have hlast : s ∈ visited s₁ l := hpath.last_mem
    refine ⟨hown'.step hstep.2,
      hreads.step hown' hstep.2 (hret (e, s') (List.mem_append_right _ (List.mem_singleton_self _))) ?_ ?_⟩
    · intro v hv
      rw [visited_snoc]
      rcases hv with hv | ⟨q, hq, u, hu⟩
      · exact .inl hv
      · exact .inr ⟨q, List.mem_append_left _ hq, u, hu⟩
    · intro v u hu
      rw [visited_snoc]
      rcases hu with hu | hu
      · exact .inr ⟨s, List.mem_append_left _ hlast, u, hu⟩
      · exact .inr ⟨s', List.mem_append_right _ (List.mem_singleton_self _), u, hu⟩

/-! ## A call that overlaps no set of the key -/

/-- No client is in a `set` of the key. -/
def Unset (k : RecordKey) (s : State τ) : Prop := ∀ u v, ¬ Setting k v (s.phase u)

theorem entry_stays {e : Event τ} (hstep : Step s e s') (hok : SetsOnly k s e) (hunset : Unset k s) {id : RecordIDType}
    (hk : s.index k = some id) : s'.index k = some id := by
  cases hstep with
  | call _ => exact hk
  | ret _ => exact hk
  | @act u s' ha =>
    have hremove := hok u rfl
    have hset := hunset u
    generalize s.phase u = p at ha hremove hset
    cases ha with
    | @remove k' _ _ =>
      have hne : k ≠ k' := fun heq => hremove (by rw [heq])
      simpa [Function.update_of_ne hne] using hk
    | @set k' v _ _ =>
      have hne : k ≠ k' := fun heq => hset v ⟨heq.symm, rfl⟩
      simpa [Function.update_of_ne hne] using hk
    | @setInsert k' v _ _ =>
      have hne : k ≠ k' := fun heq => hset v ⟨heq.symm, rfl⟩
      simpa [Function.update_of_ne hne] using hk
    | _ => exact hk

theorem entry_record_stays (h : Owned s) {e : Event τ} (hstep : Step s e s') {id : RecordIDType} {v : Value}
    (hk : s.index k = some id) (hv : s.records id = some (k, v)) : s'.records id = some (k, v) := by
  obtain ⟨u, x, heff, -⟩ := effect_of_step hstep
  cases heff with
  | none _ => exact hv
  | take _ _ _ => exact hv
  | @drop id' hu _ =>
    have hne : id ≠ id' := by
      rintro rfl
      exact (h.held u id (holds_of_removes hu)).2 k hk
    simpa [Function.update_of_ne hne] using hv
  | @insert _ _ id' hid _ _ =>
    have hne : id ≠ id' := by
      rintro rfl
      simp [hid] at hv
    simpa [Function.update_of_ne hne] using hv
  | enter _ _ _ => exact hv

/-- The reader has found the record, or will. -/
def Finds (k : RecordKey) (id : RecordIDType) (v : Value) : Phase → Prop
  | .get k' | .exist k' => k' = k
  | .getRecordValue k' id' => k' = k ∧ id' = id
  | .answered (.got r) => r = some v
  | .answered (.existed b) => b = true
  | _ => False

theorem finds_act {id : RecordIDType} {v : Value} (hk : s.index k = some id) (hv : s.records id = some (k, v))
    (hf : Finds k id v (s.phase t)) (ha : Act s t (s.phase t) s') : Finds k id v (s'.phase t) := by
  generalize s.phase t = p at ha hf
  cases ha with
  | @get k' =>
    obtain rfl : k' = k := hf
    rw [State.goto_phase, Function.update_self, hk]
    exact ⟨rfl, rfl⟩
  | @getRecordValue k' id' =>
    obtain ⟨rfl, rfl⟩ := hf
    rw [State.goto_phase, Function.update_self]
    simp [Finds, State.recordValue, hv]
  | @exist k' =>
    obtain rfl : k' = k := hf
    rw [State.goto_phase, Function.update_self, hk]
    rfl
  | _ => exact hf.elim

theorem finds_path (hown : Owned s₁) {id : RecordIDType} {v : Value} (hk : s₁.index k = some id)
    (hv : s₁.records id = some (k, v)) (hf : Finds k id v (s₁.phase t)) {l : List (Event τ × State τ)}
    (hpath : Path (Restrict Step (SetsOnly k)) s₁ l s₂) (hret : ∀ e ∈ l, e.1 ≠ .ret t)
    (hunset : ∀ s ∈ visited s₁ l, Unset k s) :
    Owned s₂ ∧ s₂.index k = some id ∧ s₂.records id = some (k, v) ∧ Finds k id v (s₂.phase t) := by
  induction hpath with
  | nil => exact ⟨hown, hk, hv, hf⟩
  | @snoc l s e s' hpath hstep ih =>
    rw [visited_snoc] at hunset
    obtain ⟨hown', hk', hv', hf'⟩ := ih (fun e he => hret e (List.mem_append_left _ he))
      fun q hq => hunset q (List.mem_append_left _ hq)
    have hs := hunset s (List.mem_append_left _ hpath.last_mem)
    refine ⟨hown'.step hstep.2, entry_stays hstep.2 hstep.1 hs hk', entry_record_stays hown' hstep.2 hk' hv', ?_⟩
    rcases phase_of_step t hstep.2 with ha | hret' | hsame | hidle
    · exact finds_act hk' hv' hf' ha
    · exact absurd hret' (hret (e, s') (List.mem_append_right _ (List.mem_singleton_self _)))
    · rwa [hsame]
    · rw [hidle] at hf'
      exact hf'.elim

/-- From a state in which the key has a value, while only sets write it: a `get` reads
the value the key had when it began or that of a set that overlaps it; and a `get` or
`exist` that overlaps no set of the key finds it. -/
theorem readers (hreach : Reach Init Step s₀) (hhas : (s₀.index k).isSome)
    {l₁ l₂ : List (Event τ × State τ)} (hpath₁ : Path (Restrict Step (SetsOnly k)) s₀ l₁ s₁)
    (hpath₂ : Path (Restrict Step (SetsOnly k)) s₁ l₂ s₂) (hret : ∀ e ∈ l₂, e.1 ≠ .ret t) :
    (s₁.phase t = .get k → ∀ r, s₂.phase t = .answered (.got r) →
      (∀ v, r = some v → valueOf s₁ k = some v ∨ ∃ s ∈ visited s₁ l₂, ∃ u, Setting k v (s.phase u)) ∧
      ((∀ s ∈ visited s₁ l₂, Unset k s) → r = valueOf s₁ k ∧ r.isSome)) ∧
    (s₁.phase t = .exist k → ∀ b, s₂.phase t = .answered (.existed b) →
      (∀ s ∈ visited s₁ l₂, Unset k s) → b = true) := by
  have hreach₁ : Reach Init Step s₁ := (hpath₁.mono fun _ _ _ h => h.2).reach hreach
  have hown := reach_owned hreach₁
  have hkept : Kept k s₁ := Kept.path (.inl (Option.isSome_iff_ne_none.1 hhas)) hpath₁
  -- a key that nobody is setting is in the index when the call begins
  have hentry : Unset k s₁ → ∃ id v, s₁.index k = some id ∧ s₁.records id = some (k, v) ∧ valueOf s₁ k = some v := by
    intro hunset
    rcases hkept with hk | ⟨u, hu⟩
    · obtain ⟨id, hid⟩ := Option.ne_none_iff_exists'.1 hk
      obtain ⟨v, hv⟩ := hown.entry k id hid
      exact ⟨id, v, hid, hv, by rw [valueOf, hid, Option.bind_some, hv]; rfl⟩
    · obtain ⟨v, hv⟩ := between_setting hu
      exact absurd hv (hunset u v)
  have hfirst : s₁ ∈ visited s₁ l₂ := by simp [visited]
  refine ⟨fun hbegin r hr => ⟨fun v hrv => ?_, fun hunset => ?_⟩, fun hbegin b hb hunset => ?_⟩
  · have hreads := (Reads.path hown hbegin hpath₂ hret).2.reading
    rw [hr] at hreads
    exact hreads v hrv
  · obtain ⟨id, v, hid, hv, hval⟩ := hentry (hunset _ hfirst)
    have hf := (finds_path hown hid hv (hbegin ▸ rfl) hpath₂ hret hunset).2.2.2
    rw [hr] at hf
    obtain rfl : r = some v := hf
    exact ⟨hval.symm, rfl⟩
  · obtain ⟨id, v, hid, hv, -⟩ := hentry (hunset _ hfirst)
    have hf := (finds_path hown hid hv (hbegin ▸ rfl) hpath₂ hret hunset).2.2.2
    rw [hb] at hf
    exact hf

end

/-! ## Two runs -/

/-- A step that is not a client's action leaves the entries. -/
theorem setsOnly_call {τ : Type} {s : State τ} {k : RecordKey} {t : τ} {c : Call} : SetsOnly k s (.call t c) :=
  fun _ h => nomatch h

theorem setsOnly_act {τ : Type} {s : State τ} {k : RecordKey} {t : τ} (ht : s.phase t ≠ .remove k) :
    SetsOnly k s (.act t) := by
  intro u hu
  cases hu
  exact ht

theorem entered_reach : Reach Init Step entered :=
  (inserting_reach.next (.act (t := 0) (show Act _ 0 (.setInsert keyA [7] ⟨1, 0⟩) _ from .setInsert rfl))).next
    (.ret (a := .wasSet) rfl)

theorem getting_path : Path (Restrict Step (SetsOnly keyA)) entered [(.call 1 (.get [65]), getting)] getting :=
  Path.one ⟨setsOnly_call, .call rfl⟩

theorem gotten_path : Path (Restrict Step (SetsOnly keyA)) getting gottenSteps gotten :=
  (Path.one ⟨setsOnly_act (fun h => by cases h), .act (show Act _ 1 (.get keyA) _ from .get)⟩).snoc
    ⟨setsOnly_act (fun h => by cases h), .act (show Act _ 1 (.getRecordValue keyA ⟨1, 0⟩) _ from .getRecordValue)⟩

/-- Client 1 reads the value that was set. -/
theorem readers_gotten : valueOf getting keyA = some [7] ∨
    ∃ s ∈ visited getting gottenSteps, ∃ u, Setting keyA [7] (s.phase u) :=
  ((readers (t := 1) entered_reach rfl getting_path gotten_path (by simp [gottenSteps])).1 rfl (some [7]) rfl).1 [7] rfl

theorem replacing_path : Path (Restrict Step (SetsOnly keyA)) entered
    [(.call 0 (.set [65] [8]), entered.goto 0 (Call.set [65] [8]).start), (.act 0, replacing)] replacing :=
  (Path.one ⟨setsOnly_call, .call rfl⟩).snoc
    ⟨setsOnly_act (fun h => by cases h), .act (show Act _ 0 (.set keyA [8]) _ from .set rfl)⟩

/-- The key had a value and only a set wrote it, and client 1 is told that it does not exist. -/
theorem exist_sees_gap : Reach Init Step entered ∧ (entered.index keyA).isSome ∧ ∃ s₁ s₂ l₁ l₂,
    Path (Restrict Step (SetsOnly keyA)) entered l₁ s₁ ∧ s₁.phase 1 = .exist keyA ∧
    Path (Restrict Step (SetsOnly keyA)) s₁ l₂ s₂ ∧ s₂.phase 1 = .answered (.existed false) :=
  ⟨entered_reach, rfl, replacing.goto 1 (Call.exist [65]).start, _, _, _,
    replacing_path.snoc ⟨setsOnly_call, .call (c := .exist [65]) rfl⟩, rfl,
    Path.one ⟨setsOnly_act (fun h => by cases h), .act (show Act _ 1 (.exist keyA) _ from .exist)⟩, rfl⟩

end MisakiDB.DataBase.Threads
