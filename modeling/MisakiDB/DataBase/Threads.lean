import MisakiDB.DataBase.Key
import MisakiDB.Data.DataAccessor
import MisakiDB.Lib.Runs
/-!
# Calls of `DataBase` by many clients

Each call is made of steps on the index and on the data file, and the steps of
different clients interleave. A B+ tree call is one step on a finite map from keys to
record ids; a `DataAccessor` call is one step on a finite map from record ids to
records. What the two do on their pools and files is such a step (`threads_of_files`).

`Owned` is the invariant between any two steps: every live record is in the index
under its own key or in the hands of one unfinished call, never both.
-/

namespace MisakiDB.DataBase.Threads

open Runs

abbrev Value := List Byte

inductive Call
  | get (key : List Byte)
  | exist (key : List Byte)
  | remove (key : List Byte)
  | set (key : List Byte) (value : Value)

inductive Answer
  | got (value : Option Value)
  | existed (b : Bool)
  | removed (b : Bool)
  | wasSet
  deriving DecidableEq

/-- Where a client stands: what its call does next. -/
inductive Phase
  | idle
  | get (key : RecordKey)
  | getRecordValue (key : RecordKey) (recordID : RecordIDType)
  | exist (key : RecordKey)
  | remove (key : RecordKey)
  | removeRecord (recordID : RecordIDType)
  | set (key : RecordKey) (value : Value)
  | setRemoveRecord (key : RecordKey) (value : Value) (recordID : RecordIDType)
  | setInsertRecord (key : RecordKey) (value : Value)
  | setInsert (key : RecordKey) (value : Value) (recordID : RecordIDType)
  | setUndo (key : RecordKey) (value : Value) (recordID : RecordIDType)
  | answered (a : Answer)

/-- `set` processes the key, and `remove` on the same string processes it again: the
key it goes on with is the one processed twice. -/
def Call.start : Call → Phase
  | .get key => .get (processKey key)
  | .exist key => .exist (processKey key)
  | .remove key => .remove (processKey key)
  | .set key value => .set (processKey (processKey key).data) value

structure State (τ : Type) where
  index : RecordKey → Option RecordIDType
  records : RecordIDType → Option (RecordKey × Value)
  phase : τ → Phase

inductive Event (τ : Type)
  | call (t : τ) (c : Call)
  | act (t : τ)
  | ret (t : τ)

section
variable {τ : Type}

namespace State

def goto [DecidableEq τ] (s : State τ) (t : τ) (x : Phase) : State τ := { s with phase := Function.update s.phase t x }

def setIndex (s : State τ) (k : RecordKey) (id : Option RecordIDType) : State τ :=
  { s with index := Function.update s.index k id }

def setRecord (s : State τ) (id : RecordIDType) (r : Option (RecordKey × Value)) : State τ :=
  { s with records := Function.update s.records id r }

section Fields
variable (s : State τ) (t : τ) (x : Phase) (k : RecordKey) (o : Option RecordIDType) (id : RecordIDType)
  (r : Option (RecordKey × Value))

@[simp] theorem goto_index [DecidableEq τ] : (s.goto t x).index = s.index := rfl
@[simp] theorem goto_records [DecidableEq τ] : (s.goto t x).records = s.records := rfl
@[simp] theorem goto_phase [DecidableEq τ] : (s.goto t x).phase = Function.update s.phase t x := rfl
@[simp] theorem setIndex_index : (s.setIndex k o).index = Function.update s.index k o := rfl
@[simp] theorem setIndex_records : (s.setIndex k o).records = s.records := rfl
@[simp] theorem setIndex_phase : (s.setIndex k o).phase = s.phase := rfl
@[simp] theorem setRecord_index : (s.setRecord id r).index = s.index := rfl
@[simp] theorem setRecord_records : (s.setRecord id r).records = Function.update s.records id r := rfl
@[simp] theorem setRecord_phase : (s.setRecord id r).phase = s.phase := rfl

end Fields

/-- `DataAccessor::getRecordValue`: nothing when the record has another key. -/
def recordValue (s : State τ) (k : RecordKey) (id : RecordIDType) : Option Value :=
  match s.records id with
  | some (k', v) => if k' = k then some v else none
  | none => none

end State

variable [DecidableEq τ]

/-- One step of the client in its phase. -/
inductive Act (s : State τ) (t : τ) : Phase → State τ → Prop
  | get {k} : Act s t (.get k) (s.goto t (match s.index k with
      | none => .answered (.got none)
      | some id => .getRecordValue k id))
  | getRecordValue {k id} : Act s t (.getRecordValue k id) (s.goto t (.answered (.got (s.recordValue k id))))
  | exist {k} : Act s t (.exist k) (s.goto t (.answered (.existed (s.index k).isSome)))
  | removeNone {k} : s.index k = none → Act s t (.remove k) (s.goto t (.answered (.removed false)))
  | remove {k id} : s.index k = some id → Act s t (.remove k) ((s.setIndex k none).goto t (.removeRecord id))
  | removeRecord {id} : Act s t (.removeRecord id) ((s.setRecord id none).goto t (.answered (.removed true)))
  | setNone {k v} : s.index k = none → Act s t (.set k v) (s.goto t (.setInsertRecord k v))
  | set {k v id} : s.index k = some id → Act s t (.set k v) ((s.setIndex k none).goto t (.setRemoveRecord k v id))
  | setRemoveRecord {k v id} :
      Act s t (.setRemoveRecord k v id) ((s.setRecord id none).goto t (.setInsertRecord k v))
  | setInsertRecord {k v id} : s.records id = none →
      Act s t (.setInsertRecord k v) ((s.setRecord id (some (k, v))).goto t (.setInsert k v id))
  | setInsert {k v id} : s.index k = none →
      Act s t (.setInsert k v id) ((s.setIndex k (some id)).goto t (.answered .wasSet))
  | setInsertTaken {k v id} : s.index k ≠ none → Act s t (.setInsert k v id) (s.goto t (.setUndo k v id))
  | setUndo {k v id} : Act s t (.setUndo k v id) ((s.setRecord id none).goto t (.answered .wasSet))

inductive Step (s : State τ) : Event τ → State τ → Prop
  | call {t c} : s.phase t = .idle → Step s (.call t c) (s.goto t c.start)
  | act {t s'} : Act s t (s.phase t) s' → Step s (.act t) s'
  | ret {t a} : s.phase t = .answered a → Step s (.ret t) (s.goto t .idle)

/-- A new database, before any call. -/
def Init (s : State τ) : Prop := (∀ k, s.index k = none) ∧ (∀ id, s.records id = none) ∧ ∀ t, s.phase t = .idle

/-! ## Ownership -/

/-- The record that the call has taken out of the index, or not put in yet. -/
def Phase.holds : Phase → Option RecordIDType
  | removeRecord id | setRemoveRecord _ _ id | setInsert _ _ id | setUndo _ _ id => some id
  | _ => none

/-- The record that the call is about to remove from the data file. -/
def Phase.removes : Phase → Option RecordIDType
  | removeRecord id | setRemoveRecord _ _ id | setUndo _ _ id => some id
  | _ => none

structure Owned (s : State τ) : Prop where
  /-- An index entry is a live record of its key. -/
  entry : ∀ k id, s.index k = some id → ∃ v, s.records id = some (k, v)
  /-- A call that holds a record holds a live one, which is in no entry. -/
  held : ∀ t id, (s.phase t).holds = some id → (s.records id).isSome ∧ ∀ k, s.index k ≠ some id
  /-- No two calls hold one record. -/
  apart : ∀ t u id, (s.phase t).holds = some id → (s.phase u).holds = some id → t = u
  /-- A live record is held, or in its key's entry. -/
  live : ∀ id k v, s.records id = some (k, v) → s.index k = some id ∨ ∃ t, (s.phase t).holds = some id
  /-- What is about to be entered is the record just inserted. -/
  inserted : ∀ t k v id, s.phase t = .setInsert k v id → s.records id = some (k, v)

variable {s s' : State τ}

/-- Everything a step can do, to the index, the records and what its client holds. -/
inductive Effect (s : State τ) (t : τ) (x : Phase) : State τ → Prop
  /-- Nothing. -/
  | none : x.holds = (s.phase t).holds → Effect s t x (s.goto t x)
  /-- Take an entry out of the index. -/
  | take {k id} : s.index k = some id → (s.phase t).holds = .none → x.holds = some id →
      Effect s t x ((s.setIndex k .none).goto t x)
  /-- Remove the record held. -/
  | drop {id} : (s.phase t).removes = some id → x.holds = .none → Effect s t x ((s.setRecord id .none).goto t x)
  /-- Insert a record. -/
  | insert {k v id} : s.records id = .none → (s.phase t).holds = .none → x = .setInsert k v id →
      Effect s t x ((s.setRecord id (some (k, v))).goto t x)
  /-- Enter the record in the index. -/
  | enter {k v id} : s.index k = .none → s.phase t = .setInsert k v id → x.holds = .none →
      Effect s t x ((s.setIndex k (some id)).goto t x)

theorem effect_of_step {e : Event τ} (h : Step s e s') : ∃ t x, Effect s t x s' ∧
    ∀ k v id, x = .setInsert k v id → s'.records id = some (k, v) := by
  cases h with
  | @call t c ht =>
    refine ⟨t, c.start, .none ?_, ?_⟩
    · rw [ht]
      cases c <;> rfl
    · cases c <;> simp [Call.start]
  | @ret t a ht => exact ⟨t, .idle, .none (by rw [ht]; rfl), by simp⟩
  | @act t s' ha =>
    generalize hp : s.phase t = p at ha
    have hholds : (s.phase t).holds = p.holds := congrArg _ hp
    have hremoves : (s.phase t).removes = p.removes := congrArg _ hp
    cases ha with
    | @get k =>
      refine ⟨t, _, .none ?_, ?_⟩
      · rw [hholds]
        cases s.index k <;> rfl
      · cases s.index k <;> simp
    | getRecordValue => exact ⟨t, _, .none (by rw [hholds]; rfl), by simp⟩
    | exist => exact ⟨t, _, .none (by rw [hholds]; rfl), by simp⟩
    | removeNone _ => exact ⟨t, _, .none (by rw [hholds]; rfl), by simp⟩
    | remove hk => exact ⟨t, _, .take hk (by rw [hholds]; rfl) rfl, by simp⟩
    | removeRecord => exact ⟨t, _, .drop (by rw [hremoves]; rfl) rfl, by simp⟩
    | setNone _ => exact ⟨t, _, .none (by rw [hholds]; rfl), by simp⟩
    | set hk => exact ⟨t, _, .take hk (by rw [hholds]; rfl) rfl, by simp⟩
    | setRemoveRecord => exact ⟨t, _, .drop (by rw [hremoves]; rfl) rfl, by simp⟩
    | @setInsertRecord k v id hid =>
      refine ⟨t, _, .insert hid (by rw [hholds]; rfl) rfl, ?_⟩
      rintro k' v' id' heq
      rw [Phase.setInsert.injEq] at heq
      obtain ⟨rfl, rfl, rfl⟩ := heq
      simp [State.goto, State.setRecord]
    | setInsert hk => exact ⟨t, _, .enter hk hp rfl, by simp⟩
    | setInsertTaken _ => exact ⟨t, _, .none (by rw [hholds]; rfl), by simp⟩
    | setUndo => exact ⟨t, _, .drop (by rw [hremoves]; rfl) rfl, by simp⟩

theorem holds_of_removes {x : Phase} {id : RecordIDType} (h : x.removes = some id) : x.holds = some id := by
  cases x <;> simp_all [Phase.removes, Phase.holds]

/-- Whoever holds a record after a step is its client, or held it before. -/
theorem holds_goto {t u : τ} {x : Phase} {id : RecordIDType} (h : ((s.goto t x).phase u).holds = some id) :
    (u = t ∧ x.holds = some id) ∨ (u ≠ t ∧ (s.phase u).holds = some id) := by
  rw [State.goto_phase] at h
  by_cases hu : u = t
  · subst hu
    rw [Function.update_self] at h
    exact .inl ⟨rfl, h⟩
  · rw [Function.update_of_ne hu] at h
    exact .inr ⟨hu, h⟩

omit [DecidableEq τ] in
theorem init_owned (h : Init s) : Owned s := by
  obtain ⟨hindex, hrecords, hidle⟩ := h
  constructor
  · intro k id hk
    simp [hindex] at hk
  · intro t id ht
    simp [hidle, Phase.holds] at ht
  · intro t u id ht
    simp [hidle, Phase.holds] at ht
  · intro id k v hid
    simp [hrecords] at hid
  · intro t k v id ht
    simp [hidle] at ht

theorem setInsert_goto {t u : τ} {x : Phase} {k : RecordKey} {v : Value} {id : RecordIDType}
    (h : (s.goto t x).phase u = .setInsert k v id) :
    (u = t ∧ x = .setInsert k v id) ∨ (u ≠ t ∧ s.phase u = .setInsert k v id) := by
  rw [State.goto_phase] at h
  by_cases hu : u = t
  · subst hu
    rw [Function.update_self] at h
    exact .inl ⟨rfl, h⟩
  · rw [Function.update_of_ne hu] at h
    exact .inr ⟨hu, h⟩

/-- What a client holds while others move. -/
theorem holds_goto_of_ne {t u : τ} {x : Phase} (h : u ≠ t) : ((s.goto t x).phase u).holds = (s.phase u).holds := by
  rw [State.goto_phase, Function.update_of_ne h]

theorem holds_goto_self {t : τ} {x : Phase} : ((s.goto t x).phase t).holds = x.holds := by
  rw [State.goto_phase, Function.update_self]

variable {t : τ} {x : Phase} {k : RecordKey} {v : Value} {id : RecordIDType}

theorem Owned.goto (h : Owned s) (hx : x.holds = (s.phase t).holds)
    (hins : ∀ k v id, x = .setInsert k v id → s.records id = some (k, v)) : Owned (s.goto t x) := by
  have hsame : ∀ u, ((s.goto t x).phase u).holds = (s.phase u).holds := fun u => by
    by_cases hu : u = t
    · rw [hu, holds_goto_self, hx]
    · exact holds_goto_of_ne hu
  constructor
  · exact h.entry
  · intro u id hu
    rw [hsame] at hu
    exact h.held u id hu
  · intro u w id hu hw
    rw [hsame] at hu hw
    exact h.apart u w id hu hw
  · intro id k v hid
    rcases h.live id k v hid with hk | ⟨u, hu⟩
    · exact .inl hk
    · exact .inr ⟨u, by rwa [hsame]⟩
  · intro u k v id hu
    rcases setInsert_goto hu with ⟨-, rfl⟩ | ⟨-, hu⟩
    · exact hins k v id rfl
    · exact h.inserted u k v id hu

/-- The entry taken out is held from then on. -/
theorem Owned.take (h : Owned s) (hk : s.index k = some id) (ht : (s.phase t).holds = none) (hx : x.holds = some id)
    (hins : ∀ k v id, x = .setInsert k v id → s.records id = some (k, v)) : Owned ((s.setIndex k none).goto t x) := by
  obtain ⟨v, hv⟩ := h.entry k id hk
  have hnotheld : ∀ u, (s.phase u).holds ≠ some id := fun u hu => (h.held u id hu).2 k hk
  -- the record goes from the index to the client
  constructor
  · intro k' id' hk'
    by_cases hkk : k' = k
    · simp [hkk] at hk'
    · simp only [State.goto_index, State.setIndex_index, Function.update_of_ne hkk] at hk'
      exact h.entry k' id' hk'
  · intro u id' hu
    simp only [State.goto_index, State.setIndex_index, State.goto_records, State.setIndex_records]
    rcases holds_goto hu with ⟨-, hid⟩ | ⟨-, hu⟩
    · obtain rfl : id = id' := Option.some.inj (hx.symm.trans hid)
      refine ⟨by simp [hv], fun k' hk' => ?_⟩
      by_cases hkk : k' = k
      · simp [hkk] at hk'
      · rw [Function.update_of_ne hkk] at hk'
        obtain ⟨v', hv'⟩ := h.entry k' id hk'
        rw [hv, Option.some.injEq, Prod.mk.injEq] at hv'
        exact hkk hv'.1.symm
    · obtain ⟨hlive, hnot⟩ := h.held u id' hu
      refine ⟨hlive, fun k' hk' => ?_⟩
      by_cases hkk : k' = k
      · simp [hkk] at hk'
      · rw [Function.update_of_ne hkk] at hk'
        exact hnot k' hk'
  · intro u w id' hu hw
    rcases holds_goto hu with ⟨rfl, hid⟩ | ⟨-, hu'⟩ <;> rcases holds_goto hw with ⟨rfl, hid'⟩ | ⟨-, hw'⟩
    · rfl
    · obtain rfl : id = id' := Option.some.inj (hx.symm.trans hid)
      exact absurd hw' (hnotheld w)
    · obtain rfl : id = id' := Option.some.inj (hx.symm.trans hid')
      exact absurd hu' (hnotheld u)
    · exact h.apart u w id' hu' hw'
  · intro id' k' v' hid
    simp only [State.goto_index, State.setIndex_index]
    rcases h.live id' k' v' hid with hk' | ⟨u, hu⟩
    · by_cases hkk : k' = k
      · rw [hkk, hk] at hk'
        exact .inr ⟨t, by rw [holds_goto_self, hx, hk']⟩
      · exact .inl (by rwa [Function.update_of_ne hkk])
    · have hut : u ≠ t := by
        rintro rfl
        simp [ht] at hu
      exact .inr ⟨u, by rw [holds_goto_of_ne hut]; exact hu⟩
  · intro u k' v' id' hu
    rcases setInsert_goto hu with ⟨-, rfl⟩ | ⟨-, hu⟩
    · exact hins k' v' id' rfl
    · exact h.inserted u k' v' id' hu

/-- The record dropped was its client's alone. -/
theorem Owned.drop (h : Owned s) (ht : (s.phase t).holds = some id) (hx : x.holds = none) :
    Owned ((s.setRecord id none).goto t x) := by
  obtain ⟨-, hnot⟩ := h.held t id ht
  have hother : ∀ u, u ≠ t → (s.phase u).holds ≠ some id := fun u hu hid => hu (h.apart u t id hid ht)
  -- the record goes, and only its client knew it
  constructor
  · intro k' id' hk'
    have hne : id' ≠ id := fun heq => hnot k' (heq ▸ hk')
    obtain ⟨v', hv'⟩ := h.entry k' id' hk'
    exact ⟨v', by simpa [hne] using hv'⟩
  · intro u id' hu
    rcases holds_goto hu with ⟨-, hid⟩ | ⟨hut, hu⟩
    · simp [hx] at hid
    · have hne : id' ≠ id := by
        rintro rfl
        exact hother u hut hu
      simpa [hne] using h.held u id' hu
  · intro u w id' hu hw
    rcases holds_goto hu with ⟨-, hid⟩ | ⟨-, hu⟩
    · simp [hx] at hid
    rcases holds_goto hw with ⟨-, hid⟩ | ⟨-, hw⟩
    · simp [hx] at hid
    exact h.apart u w id' hu hw
  · intro id' k' v' hid
    simp only [State.goto_records, State.setRecord_records] at hid
    have hne : id' ≠ id := by
      rintro rfl
      simp at hid
    rw [Function.update_of_ne hne] at hid
    rcases h.live id' k' v' hid with hk' | ⟨u, hu⟩
    · exact .inl hk'
    · have hut : u ≠ t := by
        rintro rfl
        exact hne (Option.some.inj (hu.symm.trans ht))
      exact .inr ⟨u, by rw [holds_goto_of_ne hut]; exact hu⟩
  · intro u k' v' id' hu
    rcases setInsert_goto hu with ⟨-, rfl⟩ | ⟨hut, hu⟩
    · simp [Phase.holds] at hx
    · have hne : id' ≠ id := by
        rintro rfl
        exact hother u hut (by simp only [State.setRecord_phase] at hu; rw [hu]; rfl)
      simpa [hne] using h.inserted u k' v' id' hu

/-- A record inserted under a free id is its client's. -/
theorem Owned.insert (h : Owned s) (hid : s.records id = none) (ht : (s.phase t).holds = none)
    (hx : x = .setInsert k v id) : Owned ((s.setRecord id (some (k, v))).goto t x) := by
  subst hx
  have hentry : ∀ k', s.index k' ≠ some id := fun k' hk' => by
    obtain ⟨v', hv'⟩ := h.entry k' id hk'
    simp [hid] at hv'
  have hother : ∀ u, (s.phase u).holds ≠ some id := fun u hu => by
    have := (h.held u id hu).1
    simp [hid] at this
  -- the record is new, and its client holds it
  constructor
  · intro k' id' hk'
    have hne : id' ≠ id := fun heq => hentry k' (heq ▸ hk')
    obtain ⟨v', hv'⟩ := h.entry k' id' hk'
    exact ⟨v', by simpa [hne] using hv'⟩
  · intro u id' hu
    rcases holds_goto hu with ⟨-, hid'⟩ | ⟨-, hu⟩
    · obtain rfl : id = id' := Option.some.inj hid'
      exact ⟨by simp, hentry⟩
    · have hne : id' ≠ id := by
        rintro rfl
        exact hother u hu
      simpa [hne] using h.held u id' hu
  · intro u w id' hu hw
    rcases holds_goto hu with ⟨rfl, hid'⟩ | ⟨-, hu'⟩ <;> rcases holds_goto hw with ⟨rfl, hid''⟩ | ⟨-, hw'⟩
    · rfl
    · obtain rfl : id = id' := Option.some.inj hid'
      exact absurd hw' (hother w)
    · obtain rfl : id = id' := Option.some.inj hid''
      exact absurd hu' (hother u)
    · exact h.apart u w id' hu' hw'
  · intro id' k' v' hid'
    by_cases hne : id' = id
    · exact .inr ⟨t, by rw [holds_goto_self, hne]; rfl⟩
    · simp only [State.goto_records, State.setRecord_records, Function.update_of_ne hne] at hid'
      rcases h.live id' k' v' hid' with hk' | ⟨u, hu⟩
      · exact .inl hk'
      · have hut : u ≠ t := by
          rintro rfl
          simp [ht] at hu
        exact .inr ⟨u, by rw [holds_goto_of_ne hut]; exact hu⟩
  · intro u k' v' id' hu
    rcases setInsert_goto hu with ⟨-, hx⟩ | ⟨-, hu⟩
    · rw [Phase.setInsert.injEq] at hx
      obtain ⟨rfl, rfl, rfl⟩ := hx
      simp
    · have hne : id' ≠ id := by
        rintro rfl
        exact hother u (by simp only [State.setRecord_phase] at hu; rw [hu]; rfl)
      simpa [hne] using h.inserted u k' v' id' hu

/-- The record entered was its client's, and of the entry's key. -/
theorem Owned.enter (h : Owned s) (hk : s.index k = none) (ht : s.phase t = .setInsert k v id) (hx : x.holds = none) :
    Owned ((s.setIndex k (some id)).goto t x) := by
  have hv := h.inserted t k v id ht
  have hholds : (s.phase t).holds = some id := by
    rw [ht]
    rfl
  have hother : ∀ u, u ≠ t → (s.phase u).holds ≠ some id := fun u hu hid => hu (h.apart u t id hid hholds)
  -- the record goes from its client to the index, and nobody else holds it
  constructor
  · intro k' id' hk'
    by_cases hkk : k' = k
    · subst hkk
      simp only [State.goto_index, State.setIndex_index, Function.update_self, Option.some.injEq] at hk'
      exact ⟨v, hk' ▸ hv⟩
    · simp only [State.goto_index, State.setIndex_index, Function.update_of_ne hkk] at hk'
      exact h.entry k' id' hk'
  · intro u id' hu
    rcases holds_goto hu with ⟨-, hid'⟩ | ⟨hut, hu⟩
    · simp [hx] at hid'
    · obtain ⟨hlive, hnot⟩ := h.held u id' hu
      refine ⟨hlive, fun k' hk' => ?_⟩
      by_cases hkk : k' = k
      · subst hkk
        simp only [State.goto_index, State.setIndex_index, Function.update_self, Option.some.injEq] at hk'
        exact hother u hut (hk' ▸ hu)
      · simp only [State.goto_index, State.setIndex_index, Function.update_of_ne hkk] at hk'
        exact hnot k' hk'
  · intro u w id' hu hw
    rcases holds_goto hu with ⟨-, hid⟩ | ⟨-, hu⟩
    · simp [hx] at hid
    rcases holds_goto hw with ⟨-, hid⟩ | ⟨-, hw⟩
    · simp [hx] at hid
    exact h.apart u w id' hu hw
  · intro id' k' v' hid'
    simp only [State.goto_index, State.setIndex_index]
    by_cases hne : id' = id
    · subst hne
      simp only [State.goto_records, State.setIndex_records] at hid'
      rw [hv, Option.some.injEq, Prod.mk.injEq] at hid'
      exact .inl (by rw [← hid'.1, Function.update_self])
    · rcases h.live id' k' v' hid' with hk' | ⟨u, hu⟩
      · have hkk : k' ≠ k := by
          rintro rfl
          simp [hk] at hk'
        exact .inl (by rwa [Function.update_of_ne hkk])
      · have hut : u ≠ t := by
          rintro rfl
          exact hne (Option.some.inj (hu.symm.trans hholds))
        exact .inr ⟨u, by rw [holds_goto_of_ne hut]; exact hu⟩
  · intro u k' v' id' hu
    rcases setInsert_goto hu with ⟨-, rfl⟩ | ⟨-, hu⟩
    · simp [Phase.holds] at hx
    · exact h.inserted u k' v' id' hu

theorem Owned.step (h : Owned s) {e : Event τ} (hstep : Step s e s') : Owned s' := by
  obtain ⟨t, x, heff, hins⟩ := effect_of_step hstep
  cases heff with
  | none hx => exact h.goto hx hins
  | take hk ht hx => exact h.take hk ht hx hins
  | drop ht hx => exact h.drop (holds_of_removes ht) hx
  | insert hid ht hx => exact h.insert hid ht hx
  | enter hk ht hx => exact h.enter hk ht hx

theorem reach_owned (h : Reach Init Step s) : Owned s :=
  h.inv (fun _ => init_owned) fun _ _ _ hi hstep => hi.step hstep

/-- In every state of every run: only live records are removed; a live record is in
exactly one entry or held by exactly one call, never both; and between calls the live
records are the entries, each under its key. -/
theorem index_matches_records (h : Reach Init Step s) :
    (∀ t id, (s.phase t).removes = some id → (s.records id).isSome) ∧
    (∀ id, (s.records id).isSome →
      ((∃! k, s.index k = some id) ∧ ∀ t, (s.phase t).holds ≠ some id) ∨
      ((∀ k, s.index k ≠ some id) ∧ ∃! t, (s.phase t).holds = some id)) ∧
    ((∀ t, s.phase t = .idle) → ∀ k id, s.index k = some id ↔ ∃ v, s.records id = some (k, v)) := by
  have hown := reach_owned h
  refine ⟨fun t id ht => (hown.held t id (holds_of_removes ht)).1, fun id hid => ?_,
    fun hidle k id => ⟨hown.entry k id, ?_⟩⟩
  · obtain ⟨⟨k, v⟩, hrec⟩ := Option.isSome_iff_exists.1 hid
    rcases hown.live id k v hrec with hk | ⟨t, ht⟩
    · refine .inl ⟨⟨k, hk, fun k' hk' => ?_⟩, fun t ht => (hown.held t id ht).2 k hk⟩
      obtain ⟨v', hrec'⟩ := hown.entry k' id hk'
      rw [hrec, Option.some.injEq, Prod.mk.injEq] at hrec'
      exact hrec'.1.symm
    · exact .inr ⟨(hown.held t id ht).2, t, ht, fun u hu => hown.apart u t id hu ht⟩
  · rintro ⟨v, hrec⟩
    rcases hown.live id k v hrec with hk | ⟨t, ht⟩
    · exact hk
    · simp [hidle, Phase.holds] at ht

end

/-- Two clients and an empty database. -/
def newDataBase : State (Fin 2) := ⟨fun _ => none, fun _ => none, fun _ => .idle⟩

def keyA : RecordKey := processKey (processKey [65]).data

/-- Client 0 sets key `A`, and has inserted its record. -/
def inserting : State (Fin 2) :=
  (((newDataBase.goto 0 (Call.set [65] [7]).start).goto 0 (.setInsertRecord keyA [7])).setRecord ⟨1, 0⟩
    (some (keyA, [7]))).goto 0 (.setInsert keyA [7] ⟨1, 0⟩)

theorem inserting_reach : Reach Init Step inserting := by
  have h0 : Reach Init Step newDataBase := .start ⟨fun _ => rfl, fun _ => rfl, fun _ => rfl⟩
  have h1 := h0.next (.call (c := .set [65] [7]) (t := (0 : Fin 2)) rfl)
  have h2 := h1.next (.act (t := 0) (show Act _ 0 (.set keyA [7]) _ from .setNone rfl))
  exact h2.next (.act (t := 0) (show Act _ 0 (.setInsertRecord keyA [7]) _ from .setInsertRecord rfl))

/-- The record is client 0's alone. -/
theorem index_matches_records_inserting :
    ((∃! k, inserting.index k = some ⟨1, 0⟩) ∧ ∀ t, (inserting.phase t).holds ≠ some ⟨1, 0⟩) ∨
    ((∀ k, inserting.index k ≠ some ⟨1, 0⟩) ∧ ∃! t, (inserting.phase t).holds = some ⟨1, 0⟩) :=
  (index_matches_records inserting_reach).2.1 ⟨1, 0⟩ rfl

/-! A set, a read and a second set go on from there. -/

/-- Client 0 has set key `A`. -/
def entered : State (Fin 2) := ((inserting.setIndex keyA (some ⟨1, 0⟩)).goto 0 (.answered .wasSet)).goto 0 .idle

/-- Client 1 begins to read it. -/
def getting : State (Fin 2) := entered.goto 1 (Call.get [65]).start

def gotten : State (Fin 2) := (getting.goto 1 (.getRecordValue keyA ⟨1, 0⟩)).goto 1 (.answered (.got (some [7])))

def gottenSteps : List (Event (Fin 2) × State (Fin 2)) :=
  [(.act 1, getting.goto 1 (.getRecordValue keyA ⟨1, 0⟩)), (.act 1, gotten)]

/-- Client 0 sets the key again, and has taken its entry out. -/
def replacing : State (Fin 2) :=
  ((entered.goto 0 (Call.set [65] [8]).start).setIndex keyA none).goto 0 (.setRemoveRecord keyA [8] ⟨1, 0⟩)

end MisakiDB.DataBase.Threads
