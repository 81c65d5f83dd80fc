import MisakiDB.DataBase.Readers
import MisakiDB.Lib.Latched
/-!
# Calls that keep apart

A `set` or `remove` is two or three steps, and between them the key is in no good state. As
long as no such call overlaps another call on its key, nobody can tell: calls on other
keys may overlap it, reads of one key each other, and all of them look like calls of a
finite map that happen at once (`Sim.step`). The steps are taken on maps here, and on the
files in `OnFiles`.
-/

namespace MisakiDB.DataBase.Threads

open Runs

/-! ## The finite map -/

/-- The key that the call uses in the index. -/
def Call.key : Call → RecordKey
  | .get key | .exist key | .remove key => processKey key
  | .set key _ => processKey (processKey key).data

def Call.reads : Call → Prop
  | .get _ | .exist _ => True
  | _ => False

instance : DecidablePred Call.reads
  | .get _ | .exist _ => isTrue trivial
  | .remove _ | .set _ _ => isFalse id

def onMap (m : RecordKey → Option Value) (c : Call) : Answer × (RecordKey → Option Value) :=
  match c with
  | .get _ => (.got (m c.key), m)
  | .exist _ => (.existed (m c.key).isSome, m)
  | .remove _ => (.removed (m c.key).isSome, Function.update m c.key none)
  | .set _ value => (.wasSet, Function.update m c.key (some value))

theorem onMap_of_ne (m : RecordKey → Option Value) (c : Call) {k : RecordKey} (hk : k ≠ c.key) :
    (onMap m c).2 k = m k := by
  cases c with
  | get _ => rfl
  | exist _ => rfl
  | remove _ => exact Function.update_of_ne hk _ _
  | set _ _ => exact Function.update_of_ne hk _ _

/-! ## Which calls keep apart -/

def Phase.reads : Phase → Prop
  | get _ | getRecordValue _ _ | exist _ => True
  | _ => False

instance : DecidablePred Phase.reads
  | .get _ | .getRecordValue _ _ | .exist _ => isTrue trivial
  | .idle | .remove _ | .removeRecord _ | .set _ _ | .setRemoveRecord _ _ _ | .setInsertRecord _ _ | .setInsert _ _ _
  | .setUndo _ _ _ | .answered _ => isFalse id

section
variable {τ : Type}

/-- The client is at work on the key: it has called and has no answer yet. -/
def Phase.worksOn (s : State τ) (k : RecordKey) : Phase → Prop
  | idle | answered _ => False
  | removeRecord id => ∃ v, s.records id = some (k, v)
  | get k' | getRecordValue k' _ | exist k' | remove k' | set k' _ | setRemoveRecord k' _ _ | setInsertRecord k' _
  | setInsert k' _ _ | setUndo k' _ _ => k' = k

/-- A step, with the answer at a return. A call begins when all that are at work on its
key read it, as it does itself, or nobody is. -/
inductive Apart [DecidableEq τ] (s : State τ) : Latched.Event τ Call Answer → State τ → Prop
  | call {t c s'} : (∀ u, (s.phase u).worksOn s c.key → c.reads ∧ (s.phase u).reads) → Step s (.call t c) s' →
      Apart s (.call t c) s'
  | inside {t s'} : Step s (.act t) s' → Apart s (.inside t) s'
  | ret {t a s'} : s.phase t = .answered a → Step s (.ret t) s' → Apart s (.ret t a) s'

abbrev MapState (τ : Type) := Latched.AtomicState (RecordKey → Option Value) Call Answer τ

/-! ## The two side by side -/

def Agree (s : State τ) (m : RecordKey → Option Value) (k : RecordKey) : Prop := valueOf s k = m k

/-- A call happens in the map at its last step. What its client needs of the files until then. -/
inductive Fits (s : State τ) (m : RecordKey → Option Value) : Phase → Latched.AtomicPhase Call Answer → Prop
  | idle : Fits s m .idle .idle
  | answered (a : Answer) : Fits s m (.answered a) (.returning a)
  | start {c : Call} : Agree s m c.key → Fits s m c.start (.called c)
  | getRecordValue {key : List Byte} {id : RecordIDType} : Agree s m (processKey key) →
    s.index (processKey key) = some id →
      Fits s m (.getRecordValue (processKey key) id) (.called (.get key))
  | removeRecord {key : List Byte} {id : RecordIDType} {v : Value} : s.index (processKey key) = none →
      s.records id = some (processKey key, v) → (m (processKey key)).isSome →
      Fits s m (.removeRecord id) (.called (.remove key))
  | setRemoveRecord {key : List Byte} {v v' : Value} {id : RecordIDType} :
      s.index (Call.set key v).key = none → s.records id = some ((Call.set key v).key, v') →
      Fits s m (.setRemoveRecord (Call.set key v).key v id) (.called (.set key v))
  | setInsertRecord {key : List Byte} {v : Value} : s.index (Call.set key v).key = none →
      Fits s m (.setInsertRecord (Call.set key v).key v) (.called (.set key v))
  | setInsert {key : List Byte} {v : Value} {id : RecordIDType} : s.index (Call.set key v).key = none →
      Fits s m (.setInsert (Call.set key v).key v id) (.called (.set key v))

variable {s s' : State τ} {m m' : RecordKey → Option Value} {k : RecordKey} {t : τ} {c : Call} {x : Phase}

theorem Fits.worksOn (h : Fits s m x (.called c)) : x.worksOn s c.key ∧ (x.reads → c.reads) := by
  cases h with
  | start _ => cases c <;> exact ⟨rfl, fun h => h⟩
  | getRecordValue _ _ => exact ⟨rfl, fun h => h⟩
  | removeRecord _ hid _ => exact ⟨⟨_, hid⟩, fun h => h⟩
  | setRemoveRecord _ _ => exact ⟨rfl, fun h => h⟩
  | setInsertRecord _ => exact ⟨rfl, fun h => h⟩
  | setInsert _ => exact ⟨rfl, fun h => h⟩

/-- A reader changes nothing before it has its answer. -/
theorem Fits.agree (h : Fits s m x (.called c)) (hc : c.reads) : Agree s m c.key := by
  cases h with
  | start hagree => exact hagree
  | getRecordValue hagree _ => exact hagree
  | removeRecord _ _ _ => cases hc
  | setRemoveRecord _ _ => cases hc
  | setInsertRecord _ => cases hc
  | setInsert _ => cases hc

/-- The step was not about the key. -/
structure Same (s s' : State τ) (m m' : RecordKey → Option Value) (k : RecordKey) : Prop where
  index : s'.index k = s.index k
  records : ∀ id v, s.records id = some (k, v) → s'.records id = some (k, v)
  map : m' k = m k

theorem Same.agree (h : Same s s' m m' k) (hs : Owned s) (ha : Agree s m k) : Agree s' m' k := by
  unfold Agree valueOf at *
  rw [h.index, h.map, ← ha]
  cases hk : s.index k with
  | none => rfl
  | some id =>
    obtain ⟨v, hv⟩ := hs.entry k id hk
    simp [hv, h.records id v hv]

theorem Fits.same (h : Fits s m x (.called c)) (hs : Owned s) (hsame : Same s s' m m' c.key) :
    Fits s' m' x (.called c) := by
  cases h with
  | start hagree => exact .start (hsame.agree hs hagree)
  | getRecordValue hagree hk => exact .getRecordValue (hsame.agree hs hagree) (hsame.index.trans hk)
  | removeRecord hk hid hm =>
    exact .removeRecord (hsame.index.trans hk) (hsame.records _ _ hid) ((congrArg Option.isSome hsame.map).trans hm)
  | setRemoveRecord hk hid => exact .setRemoveRecord (hsame.index.trans hk) (hsame.records _ _ hid)
  | setInsertRecord hk => exact .setInsertRecord (hsame.index.trans hk)
  | setInsert hk => exact .setInsert (hsame.index.trans hk)

theorem Same.goto [DecidableEq τ] (t : τ) (x : Phase) (hm : m' k = m k) : Same s (s.goto t x) m m' k :=
  ⟨rfl, fun _ _ h => h, hm⟩

theorem Same.setIndex [DecidableEq τ] {k' : RecordKey} (hk : k ≠ k') (o : Option RecordIDType) (t : τ) (x : Phase)
    (hm : m' k = m k) :
    Same s ((s.setIndex k' o).goto t x) m m' k :=
  ⟨by simp [hk], fun _ _ h => h, hm⟩

/-- A record of another key, or of none, is written. -/
theorem Same.setRecord [DecidableEq τ] {id : RecordIDType} (hid : ∀ v, s.records id ≠ some (k, v))
    (r : Option (RecordKey × Value)) (t : τ)
    (x : Phase) (hm : m' k = m k) : Same s ((s.setRecord id r).goto t x) m m' k := by
  refine ⟨rfl, fun id' v hid' => ?_, hm⟩
  have hne : id' ≠ id := by
    rintro rfl
    exact hid v hid'
  simpa [hne] using hid'

/-! ## One step -/

structure Sim (s : State τ) (y : MapState τ) : Prop where
  owned : Owned s
  fits : ∀ t, Fits s y.store (s.phase t) (y.phase t)
  apart : ∀ t u c d, t ≠ u → y.phase t = .called c → y.phase u = .called d → c.key = d.key → c.reads ∧ d.reads
  rest : ∀ k, (∀ t c, y.phase t = .called c → c.key ≠ k) → Agree s y.store k

variable {y : MapState τ}

theorem Fits.of_idle {q : Latched.AtomicPhase Call Answer} (h : Fits s m .idle q) : q = .idle := by
  generalize hx : Phase.idle = x at h
  cases h with
  | idle => rfl
  | @start c _ => cases c <;> cases hx
  | answered _ => cases hx
  | getRecordValue _ _ => cases hx
  | removeRecord _ _ _ => cases hx
  | setRemoveRecord _ _ => cases hx
  | setInsertRecord _ => cases hx
  | setInsert _ => cases hx

theorem Fits.of_answered {a : Answer} {q : Latched.AtomicPhase Call Answer} (h : Fits s m (.answered a) q) :
    q = .returning a := by
  generalize hx : Phase.answered a = x at h
  cases h with
  | idle => cases hx
  | @start c _ => cases c <;> cases hx
  | answered _ =>
    cases hx
    rfl
  | getRecordValue _ _ => cases hx
  | removeRecord _ _ _ => cases hx
  | setRemoveRecord _ _ => cases hx
  | setInsertRecord _ => cases hx
  | setInsert _ => cases hx

/-- The client moves on without a call. -/
theorem Fits.outside {q : Latched.AtomicPhase Call Answer} (h : Fits s m x q) (hq : ∀ c, q ≠ .called c) :
    Fits s' m' x q := by
  cases h with
  | idle => exact .idle
  | answered a => exact .answered a
  | start _ => exact absurd rfl (hq _)
  | getRecordValue _ _ => exact absurd rfl (hq _)
  | removeRecord _ _ _ => exact absurd rfl (hq _)
  | setRemoveRecord _ _ => exact absurd rfl (hq _)
  | setInsertRecord _ => exact absurd rfl (hq _)
  | setInsert _ => exact absurd rfl (hq _)

/-- A step of the client's call: nothing of another key changes, and of its own key only if
the call writes, when no other is at work on it. -/
theorem Sim.act [DecidableEq τ] (h : Sim s y) (ht : y.phase t = .called c) {q : Latched.AtomicPhase Call Answer}
    (howned : Owned s')
    (hphase : s'.phase = Function.update s.phase t x) (hother : ∀ k, k ≠ c.key → Same s s' y.store m' k)
    (hreads : c.reads → Same s s' y.store m' c.key) (hfit : Fits s' m' x q)
    (hq : q = .called c ∨ (∀ d, q ≠ .called d) ∧ Agree s' m' c.key) :
    Sim s' ⟨m', Function.update y.phase t q⟩ := by
  have hcalled : ∀ u d, Function.update y.phase t q u = .called d → y.phase u = .called d := by
    intro u d hu
    by_cases hut : u = t
    · subst hut
      rw [Function.update_self] at hu
      rcases hq with hq | ⟨hq, -⟩
      · rw [ht, ← hq, hu]
      · exact absurd hu (hq d)
    · rwa [Function.update_of_ne hut] at hu
  refine ⟨howned, fun u => ?_, fun u w d e huw hu hw => h.apart u w d e huw (hcalled u d hu) (hcalled w e hw),
    fun k hk => ?_⟩
  · rw [hphase]
    by_cases hut : u = t
    · subst hut
      simpa using hfit
    · simp only [Function.update_of_ne hut]
      have hfits := h.fits u
      rcases hyu : y.phase u with _ | d | a
      · rw [hyu] at hfits
        exact hfits.outside (by simp)
      · rw [hyu] at hfits
        apply hfits.same h.owned
        by_cases hkey : d.key = c.key
        · -- both read
          rw [hkey]
          exact hreads (h.apart u t d c hut hyu ht hkey).2
        · exact hother _ hkey
      · rw [hyu] at hfits
        exact hfits.outside (by simp)
  · by_cases hkey : k = c.key
    · rcases hq with hq | ⟨-, hagree⟩
      · exact absurd hkey.symm (hk t c (by simp [hq]))
      · rwa [hkey]
    · refine (hother k hkey).agree h.owned (h.rest k fun u d hu => ?_)
      by_cases hut : u = t
      · subst hut
        obtain rfl : c = d := by simpa [ht] using hu
        exact Ne.symm hkey
      · exact hk u d (by simpa [hut] using hu)

/-- A step that the map does not take part in. -/
theorem Sim.silent [DecidableEq τ] (h : Sim s y) (ht : y.phase t = .called c) (howned : Owned s')
    (hphase : s'.phase = Function.update s.phase t x)
    (hother : ∀ k, k ≠ c.key → Same s s' y.store y.store k) (hreads : c.reads → Same s s' y.store y.store c.key)
    (hfit : Fits s' y.store x (.called c)) : Sim s' y := by
  have hsim := h.act ht howned hphase hother hreads hfit (.inl rfl)
  rwa [← ht, Function.update_eq_self] at hsim

/-- The call's last step, at which it happens in the map. -/
theorem Sim.answer [DecidableEq τ] (h : Sim s y) (ht : y.phase t = .called c) (howned : Owned s')
    (hphase : s'.phase = Function.update s.phase t (.answered (onMap y.store c).1))
    (hother : ∀ k, k ≠ c.key → Same s s' y.store (onMap y.store c).2 k)
    (hreads : c.reads → Same s s' y.store (onMap y.store c).2 c.key) (hagree : Agree s' (onMap y.store c).2 c.key) :
    ∃ y', Latched.AtomicStep onMap y (.inside t) y' ∧ Sim s' y' :=
  ⟨_, .perform ht, h.act ht howned hphase hother hreads (.answered _) (.inr ⟨by simp, hagree⟩)⟩

/-- A search finds the entry that the key has. -/
theorem Agree.index (h : Agree s m k) (hs : Owned s) : (s.index k).isSome = (m k).isSome := by
  unfold Agree valueOf at h
  rw [← h]
  cases hk : s.index k with
  | none => rfl
  | some id =>
    obtain ⟨v, hv⟩ := hs.entry k id hk
    simp [hv]

theorem Agree.none (h : Agree s m k) (hk : s.index k = .none) : m k = .none := by
  rw [← h, valueOf, hk]
  rfl

variable [DecidableEq τ]

theorem Sim.inside (h : Sim s y) (ha : Act s t (s.phase t) s') :
    ∃ l y', Path (Latched.AtomicStep onMap) y l y' ∧ trace Latched.Event.see l = [] ∧ Sim s' y' := by
  have howned : Owned s' := h.owned.step (.act ha)
  have hfits := h.fits t
  -- the map has nothing to do, or the call happens in it
  have silent : Sim s' y → ∃ l y', Path (Latched.AtomicStep onMap) y l y' ∧
    trace Latched.Event.see l = [] ∧ Sim s' y' :=
    fun hsim => ⟨[], y, .nil, rfl, hsim⟩
  have answer : (∃ y', Latched.AtomicStep onMap y (.inside t) y' ∧ Sim s' y') →
      ∃ l y', Path (Latched.AtomicStep onMap) y l y' ∧ trace Latched.Event.see l = [] ∧ Sim s' y' := by
    rintro ⟨y', hstep, hsim⟩
    exact ⟨_, y', .one hstep, rfl, hsim⟩
  generalize hq : y.phase t = q at hfits
  generalize hp : s.phase t = p at ha hfits
  cases hfits with
  | idle => cases ha
  | answered _ => cases ha
  | @start c hagree =>
    cases c with
    | get key =>
      cases ha
      rcases Option.eq_none_or_eq_some (s.index (processKey key)) with hk | ⟨id, hk⟩
      · have hnone : y.store (processKey key) = none := hagree.none hk
        refine answer (h.answer hq howned ?_ (fun k _ => .goto _ _ rfl) (fun _ => .goto _ _ rfl) hagree)
        simp only [State.goto_phase, onMap, Call.key, hnone, hk]
      · refine silent (h.silent (x := .getRecordValue (processKey key) id) hq howned ?_ (fun k _ => .goto _ _ rfl)
          (fun _ => .goto _ _ rfl) ?_)
        · simp only [State.goto_phase, hk]
        · exact .getRecordValue hagree hk
    | exist key =>
      cases ha
      refine answer (h.answer hq howned ?_ (fun k _ => .goto _ _ rfl) (fun _ => .goto _ _ rfl) hagree)
      simp only [State.goto_phase, onMap]
      rw [← hagree.index h.owned]
      rfl
    | remove key =>
      cases ha with
      | removeNone hk =>
        have hnone := hagree.none hk
        refine answer (h.answer hq howned ?_ (fun k hne => .goto _ _ (onMap_of_ne _ _ hne)) (fun hc => hc.elim) ?_)
        · simp only [State.goto_phase, onMap, hnone]
          rfl
        · change valueOf s _ = Function.update y.store _ none _
          rw [hagree, hnone, Function.update_self]
      | @remove _ id hk =>
        obtain ⟨v, hid⟩ := h.owned.entry _ id hk
        refine silent (h.silent hq howned rfl (fun k hne => .setIndex hne _ _ _ rfl) (fun hc => hc.elim) ?_)
        refine .removeRecord (by simp) hid ?_
        have hsome := hagree.index h.owned
        rw [show s.index (Call.remove key).key = some id from hk] at hsome
        exact hsome.symm
    | set key v =>
      cases ha with
      | setNone hk =>
        exact silent (h.silent hq howned rfl (fun k _ => .goto _ _ rfl) (fun hc => hc.elim) (.setInsertRecord hk))
      | @set _ _ id hk =>
        obtain ⟨v', hid⟩ := h.owned.entry _ id hk
        refine silent (h.silent hq howned rfl (fun k hne => .setIndex hne _ _ _ rfl) (fun hc => hc.elim) ?_)
        exact .setRemoveRecord (by simp [Call.key]) hid
  | @getRecordValue key id hagree hk =>
    cases ha
    obtain ⟨v, hid⟩ := h.owned.entry _ id hk
    have hvalue : y.store (processKey key) = some v := by
      rw [← hagree, valueOf, hk]
      simp [hid]
    refine answer (h.answer hq howned ?_ (fun k _ => .goto _ _ rfl) (fun _ => .goto _ _ rfl) hagree)
    simp [State.recordValue, hid, onMap, Call.key, hvalue]
  | @removeRecord key id v hk hid hm =>
    cases ha
    have hother : ∀ k, k ≠ (Call.remove key).key → ∀ v', s.records id ≠ some (k, v') := by
      intro k hne v' hid'
      rw [hid, Option.some.injEq, Prod.mk.injEq] at hid'
      exact hne hid'.1.symm
    refine answer (h.answer hq howned ?_ (fun k hne => .setRecord (hother k hne) _ _ _ (onMap_of_ne _ _ hne)) (fun hc => hc.elim) ?_)
    · simp only [State.goto_phase, State.setRecord_phase, onMap, Call.key, hm]
    · simp [Agree, valueOf, onMap, Call.key, hk]
  | @setRemoveRecord key v v' id hk hid =>
    cases ha
    have hother : ∀ k, k ≠ (Call.set key v).key → ∀ v'', s.records id ≠ some (k, v'') := by
      intro k hne v'' hid'
      rw [hid, Option.some.injEq, Prod.mk.injEq] at hid'
      exact hne hid'.1.symm
    exact silent (h.silent hq howned rfl (fun k hne => .setRecord (hother k hne) _ _ _ rfl) (fun hc => hc.elim) (.setInsertRecord hk))
  | @setInsertRecord key v hk =>
    cases ha with
    | @setInsertRecord _ _ id hid =>
      refine silent (h.silent hq howned rfl (fun k hne => .setRecord (by simp [hid]) _ _ _ rfl) (fun hc => hc.elim) ?_)
      exact .setInsert hk
  | @setInsert key v id hk =>
    cases ha with
    | setInsert _ =>
      refine answer (h.answer hq howned rfl (fun k hne => .setIndex hne _ _ _ (onMap_of_ne _ _ hne)) (fun hc => hc.elim) ?_)
      have hid := h.owned.inserted t _ _ _ hp
      simp [Agree, valueOf, onMap, hid]
    | setInsertTaken hne => exact absurd hk hne

/-- The client's call begins. -/
theorem Sim.call (h : Sim s y) (ht : s.phase t = .idle)
    (hc : ∀ u, (s.phase u).worksOn s c.key → c.reads ∧ (s.phase u).reads) :
    Sim (s.goto t c.start) (y.goto t (.called c)) := by
  have hidle : y.phase t = .idle := by
    have := h.fits t
    rw [ht] at this
    exact this.of_idle
  -- who overlaps the new call on its key reads, and so does the call
  have hboth : ∀ u d, y.phase u = .called d → d.key = c.key → c.reads ∧ d.reads := by
    intro u d hu hkey
    have hfits := h.fits u
    rw [hu] at hfits
    obtain ⟨hworks, hreads⟩ := hfits.worksOn
    rw [hkey] at hworks
    exact ⟨(hc u hworks).1, hreads (hc u hworks).2⟩
  -- the map has the key's entry: nobody is at work on it, or readers are
  have hagree : Agree s y.store c.key := by
    by_cases hany : ∃ u d, y.phase u = .called d ∧ d.key = c.key
    · obtain ⟨u, d, hu, hkey⟩ := hany
      have hfits := h.fits u
      rw [hu] at hfits
      rw [← hkey]
      exact hfits.agree (hboth u d hu hkey).2
    · exact h.rest _ fun u d hu hkey => hany ⟨u, d, hu, hkey⟩
  have hcalled : ∀ u d, (y.goto t (.called c)).phase u = .called d →
      (u = t ∧ d = c) ∨ (u ≠ t ∧ y.phase u = .called d) := by
    intro u d hu
    by_cases hut : u = t
    · subst hut
      exact .inl ⟨rfl, by simpa [Latched.AtomicState.goto, eq_comm] using hu⟩
    · exact .inr ⟨hut, by simpa [Latched.AtomicState.goto, hut] using hu⟩
  refine ⟨h.owned.step (.call ht), fun u => ?_, fun u w d e huw hu hw hkey => ?_, fun k hk => h.rest k fun u d hu => ?_⟩
  · by_cases hut : u = t
    · subst hut
      simpa [State.goto, Latched.AtomicState.goto] using Fits.start (s := s.goto u c.start) hagree
    · simp only [State.goto, Latched.AtomicState.goto, Function.update_of_ne hut]
      have hfits := h.fits u
      rcases hyu : y.phase u with _ | d | a
      · rw [hyu] at hfits
        exact hfits.outside (by simp)
      · rw [hyu] at hfits
        exact hfits.same h.owned (.goto t _ rfl)
      · rw [hyu] at hfits
        exact hfits.outside (by simp)
  · rcases hcalled u d hu with ⟨rfl, rfl⟩ | ⟨-, hu'⟩ <;> rcases hcalled w e hw with ⟨rfl, rfl⟩ | ⟨-, hw'⟩
    · exact absurd rfl huw
    · exact hboth w e hw' hkey.symm
    · exact (hboth u d hu' hkey).symm
    · exact h.apart u w d e huw hu' hw' hkey
  · have hut : u ≠ t := by
      rintro rfl
      simp [hidle] at hu
    exact hk u d (by simpa [Latched.AtomicState.goto, hut] using hu)

theorem Sim.ret {a : Answer} (h : Sim s y) (ht : s.phase t = .answered a) :
    y.phase t = .returning a ∧ Sim (s.goto t .idle) (y.goto t .idle) := by
  have hreturning : y.phase t = .returning a := by
    have := h.fits t
    rw [ht] at this
    exact this.of_answered
  have hcalled : ∀ u d, (y.goto t .idle).phase u = .called d → y.phase u = .called d := by
    intro u d hu
    by_cases hut : u = t
    · subst hut
      simp [Latched.AtomicState.goto] at hu
    · simpa [Latched.AtomicState.goto, hut] using hu
  refine ⟨hreturning, h.owned.step (.ret ht), fun u => ?_,
    fun u w d e huw hu hw => h.apart u w d e huw (hcalled u d hu) (hcalled w e hw),
    fun k hk => h.rest k fun u d hu => ?_⟩
  · by_cases hut : u = t
    · subst hut
      simpa [State.goto, Latched.AtomicState.goto] using Fits.idle
    · simp only [State.goto, Latched.AtomicState.goto, Function.update_of_ne hut]
      have hfits := h.fits u
      rcases hyu : y.phase u with _ | d | a'
      · rw [hyu] at hfits
        exact hfits.outside (by simp)
      · rw [hyu] at hfits
        exact hfits.same h.owned (.goto t _ rfl)
      · rw [hyu] at hfits
        exact hfits.outside (by simp)
  · have hut : u ≠ t := by
      rintro rfl
      simp [hreturning] at hu
    exact hk u d (by simpa [Latched.AtomicState.goto, hut] using hu)

theorem Sim.step (h : Sim s y) {e : Latched.Event τ Call Answer} (hstep : Apart s e s') :
    ∃ l y', Path (Latched.AtomicStep onMap) y l y' ∧ trace Latched.Event.see l = trace Latched.Event.see [(e, s')] ∧
    Sim s' y' := by
  cases hstep with
  | @call t c s' hc hstep =>
    cases hstep with
    | call ht =>
      have hidle : y.phase t = .idle := by
        have := h.fits t
        rw [ht] at this
        exact this.of_idle
      exact ⟨_, _, .one (.call hidle), rfl, h.call ht hc⟩
  | inside hstep =>
    cases hstep with
    | act ha => exact h.inside ha
  | ret ha hstep =>
    cases hstep with
    | ret _ =>
      obtain ⟨hreturning, hsim⟩ := h.ret ha
      exact ⟨_, _, .one (.ret hreturning), rfl, hsim⟩

/-! ## Runs -/

omit [DecidableEq τ] in
theorem Sim.init (h : Init s) : Sim s (Latched.AtomicState.new fun _ => none) := by
  obtain ⟨hindex, hrecords, hidle⟩ := h
  refine ⟨init_owned ⟨hindex, hrecords, hidle⟩, fun t => ?_, fun t u c d _ ht => ?_, fun k _ => ?_⟩
  · rw [hidle]
    exact .idle
  · cases ht
  · simp [Agree, valueOf, hindex, Latched.AtomicState.new]

end

end MisakiDB.DataBase.Threads
