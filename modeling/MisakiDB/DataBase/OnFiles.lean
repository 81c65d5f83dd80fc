import MisakiDB.DataBase.CallRuns
import MisakiDB.DataBase.Overlaps
/-!
# The clients' steps on the files

In `Threads` a step is taken on a finite map of entries or of records. Here it is a
program of `BPlusTree` on the index file's pool, or of `DataAccessor` on the data files'
pool, from its first page to its last. `Stands` ties the files to the two maps, and each
step on the files is the step of `Threads` that the client's phase asks for
(`Stands.step`), if three conditions hold of it: a record that is read is still there, one
that is inserted fits a page or is a blob's, and a blob has a page id. Runs on the files
are so runs of `Threads` (`threads_of_files`), and calls that keep apart look like calls
of a finite map (`apart_on_files`).
-/

namespace MisakiDB.DataBase.Threads

open Runs DataAccessor

/-- The value of the record that comes next. -/
def Phase.inserts : Phase → Option Value
  | setInsertRecord _ v => some v
  | _ => none

def Phase.busy : Phase → Bool
  | idle | answered _ => false
  | _ => true

/-- A database and its clients, each at a step of its call and with the call's `key`. -/
structure OnFiles (τ : Type) where
  db : DataBase.State
  phase : τ → Phase
  key : τ → RecordKey

namespace OnFiles
variable {τ : Type} [DecidableEq τ]

def goto (x : OnFiles τ) (t : τ) (db : DataBase.State) (p : Phase) : OnFiles τ :=
  { x with db, phase := Function.update x.phase t p }

def begin (x : OnFiles τ) (t : τ) (c : Call) : OnFiles τ :=
  ⟨x.db, Function.update x.phase t c.start, Function.update x.key t c.key⟩

/-- The step of a client's call. A program does not end if a fetch waits for a frame, and the
data files' pool is watched: it stops before it loses a map page. -/
def act (x : OnFiles τ) (t : τ) : Except Failure (OnFiles τ) :=
  match x.phase t with
  | .idle => .error .stuck
  | .answered _ => .error .stuck
  | .get k => do
    let (r, db) ← onIndex (fun fuel => BPlusTree.getValue fuel k) x.db
    pure (x.goto t db (match r with
      | none => .answered (.got none)
      | some id => .getRecordValue k id))
  | .getRecordValue k id => do
    let (r, db) ← onData true (fun fuel => DataAccessor.getRecordValue fuel k.data id) x.db
    pure (x.goto t db (.answered (.got r)))
  | .exist k => do
    let (r, db) ← onIndex (fun fuel => BPlusTree.getValue fuel k) x.db
    pure (x.goto t db (.answered (.existed r.isSome)))
  | .remove k => do
    let (r, db) ← onIndex (fun fuel => BPlusTree.remove fuel k) x.db
    pure (x.goto t db (match r with
      | none => .answered (.removed false)
      | some id => .removeRecord id))
  | .removeRecord id => do
    let (_, db) ← onData true (fun fuel => DataAccessor.removeRecord fuel id) x.db
    pure (x.goto t db (.answered (.removed true)))
  | .set k v => do
    let (r, db) ← onIndex (fun fuel => BPlusTree.remove fuel k) x.db
    pure (x.goto t db (match r with
      | none => .setInsertRecord k v
      | some id => .setRemoveRecord k v id))
  | .setRemoveRecord k v id => do
    let (_, db) ← onData true (fun fuel => DataAccessor.removeRecord fuel id) x.db
    pure (x.goto t db (.setInsertRecord k v))
  | .setInsertRecord k v => do
    let (id, db) ← onData true (fun _ => DataAccessor.insertRecord k.data v) x.db
    pure (x.goto t db (.setInsert k v id))
  | .setInsert k v id => do
    let (b, db) ← onIndex (fun fuel => BPlusTree.insert fuel k id) x.db
    pure (x.goto t db (if b then .answered .wasSet else .setUndo k v id))
  | .setUndo _ _ id => do
    let (_, db) ← onData true (fun fuel => DataAccessor.removeRecord fuel id) x.db
    pure (x.goto t db (.answered .wasSet))

/-- The state after a call begins, a step is taken, or an answer is given. -/
def next (x : OnFiles τ) : Latched.Event τ Call Answer → Option (OnFiles τ)
  | .call t c =>
    match x.phase t with
    | .idle => some (x.begin t c)
    | _ => none
  | .inside t => (x.act t).toOption
  | .ret t a =>
    match x.phase t with
    | .answered b => if b = a then some (x.goto t x.db .idle) else none
    | _ => none

section Next
variable {x x' : OnFiles τ} {t : τ}

theorem next_call {c : Call} (h : x.next (.call t c) = some x') : x.phase t = .idle ∧ x' = x.begin t c := by
  simp only [next] at h
  split at h
  · rename_i hp
    exact ⟨hp, (Option.some.inj h).symm⟩
  · cases h

theorem next_inside (h : x.next (.inside t) = some x') : x.act t = .ok x' := by
  simp only [next] at h
  cases hact : x.act t with
  | error e =>
    rw [hact] at h
    cases h
  | ok y =>
    rw [hact] at h
    rw [Option.some.inj h]

theorem next_ret {a : Answer} (h : x.next (.ret t a) = some x') :
    x.phase t = .answered a ∧ x' = x.goto t x.db .idle := by
  simp only [next] at h
  split at h
  · rename_i b hp
    split at h
    · rename_i hba
      exact ⟨hba ▸ hp, (Option.some.inj h).symm⟩
    · cases h
  · cases h

end Next

/-- The value that the client's step is to insert, which has to fit a page or be a blob's; and
a blob needs a page id. -/
def Fits (x : OnFiles τ) (t : τ) : Prop :=
  ∀ v ∈ (x.phase t).inserts, DataAccessor.Fits v ∧
    (DataFilePage.MAX_RECORD_SIZE < v.length → x.db.blobBound < 2 ^ 32 - 1)

/-- The page of the record that the client's step is to read holds it under the key. -/
def Finds (x : OnFiles τ) (t : τ) : Prop :=
  ∀ k id, x.phase t = .getRecordValue k id → ∃ raw r,
    pageAs x.db.data.cache.store (dataKey id.pageID) FilePage.asData = some raw ∧
      DataFilePage.getRecordValue raw k.data id.slotArrayIndex = some (some r)

/-- The client has called with the key and has no answer yet. -/
def AtWork (x : OnFiles τ) (k : RecordKey) (t : τ) : Prop := (x.phase t).busy = true ∧ x.key t = k

end OnFiles

/-! ## What lies behind the maps -/

/-- The files have the entries and the records of the maps. -/
structure Stands {τ : Type} (x : OnFiles τ) (s : State τ) : Prop where
  phase : x.phase = s.phase
  index : Indexed x.db.index s.index
  data : ∃ recs B, Filed x.db.data recs B ∧ ∀ id, toMap recs id = (s.records id).map fun r => (r.1.data, r.2)
  key : ∀ t k, (s.phase t).worksOn s k → x.key t = k

/-- A program that ends does what such a program is said to do. -/
theorem ends_ok {α : Type} {p : DataBaseM α} {Q : α → DataBase.State → Prop} {db db' : DataBase.State} {a : α}
    (h : Ends p Q db) (hrun : p db = .ok (a, db')) : Q a db' := by
  rcases h with ⟨e, he, -⟩ | ⟨b, db'', hok, hq⟩
  · rw [hrun] at he
    cases he
  · rw [hrun] at hok
    obtain ⟨rfl, rfl⟩ := Prod.mk.inj (Except.ok.inj hok)
    exact hq

/-- The program of a step, and what it goes on to. -/
theorem bind_ok {α : Type} {p : DataBaseM α} {db : DataBase.State} {f : α × DataBase.State → OnFiles τ} {x' : OnFiles τ}
    (h : (do let r ← p db; pure (f r)) = Except.ok x') : ∃ a db', p db = .ok (a, db') ∧ x' = f (a, db') := by
  cases hp : p db with
  | error e =>
    rw [hp] at h
    cases h
  | ok r =>
    rw [hp] at h
    exact ⟨r.1, r.2, rfl, (Except.ok.inj h).symm⟩

section
variable {τ : Type} {x x' : OnFiles τ} {s s' : State τ} {t : τ}

/-- What another client works on: a record that is written was its own, or nobody's. -/
theorem worksOn_setRecord [DecidableEq τ] {u : τ} {k : RecordKey} {id : RecordIDType} {r : Option (RecordKey × Value)}
    (hut : u ≠ t) {y : Phase}
    (hid : (s.phase u).holds = some id → r = none)
    (h : (((s.setRecord id r).goto t y).phase u).worksOn ((s.setRecord id r).goto t y) k) :
    (s.phase u).worksOn s k := by
  rw [State.goto_phase, Function.update_of_ne hut, State.setRecord_phase] at h
  generalize hp : s.phase u = p at h hid
  cases p with
  | removeRecord id' =>
    obtain ⟨v, hv⟩ := h
    by_cases heq : id' = id
    · subst heq
      rw [hid rfl] at hv
      simp at hv
    · exact ⟨v, by simpa [heq] using hv⟩
  | _ => exact h

/-- A step does not change the key that a client works on. -/
theorem worksOn_of_act [DecidableEq τ] (ho : Owned s) (ha : Act s t (s.phase t) s') {u : τ} {k : RecordKey}
    (h : (s'.phase u).worksOn s' k) : (s.phase u).worksOn s k := by
  by_cases hut : u = t
  · subst hut
    generalize s.phase u = p at ha
    cases ha with
    | @get k' =>
      rw [State.goto_phase, Function.update_self] at h
      cases hk : s.index k' with
      | none =>
        rw [hk] at h
        exact h.elim
      | some id =>
        rw [hk] at h
        exact h
    | @remove k' id hk =>
      rw [State.goto_phase, Function.update_self] at h
      obtain ⟨v, hv⟩ := h
      obtain ⟨v', hv'⟩ := ho.entry k' id hk
      exact congrArg Prod.fst (Option.some.inj (hv'.symm.trans hv))
    | getRecordValue | exist | removeNone _ | removeRecord | setInsert _ | setUndo =>
      rw [State.goto_phase, Function.update_self] at h
      exact h.elim
    | setNone _ | set _ | setRemoveRecord | setInsertRecord _ | setInsertTaken _ =>
      rw [State.goto_phase, Function.update_self] at h
      exact h
  -- another client's step leaves the record that this one holds
  · generalize s.phase t = p at ha
    cases ha with
    | removeRecord => exact worksOn_setRecord hut (fun _ => rfl) h
    | setRemoveRecord => exact worksOn_setRecord hut (fun _ => rfl) h
    | setUndo => exact worksOn_setRecord hut (fun _ => rfl) h
    | @setInsertRecord _ _ id hid =>
      refine worksOn_setRecord hut (fun hheld => ?_) h
      have hlive := (ho.held u id hheld).1
      rw [hid] at hlive
      cases hlive
    | _ =>
      rw [State.goto_phase, Function.update_of_ne hut] at h
      exact h

/-- The files after a step are those of the maps after it. -/
theorem Stands.moved [DecidableEq τ] (hs : Stands x s) (ho : Owned s) (ha : Act s t (s.phase t) s')
    {db : DataBase.State} {p : Phase}
    (hphase : s'.phase = Function.update s.phase t p) (hindex : Indexed db.index s'.index)
    (hdata : ∃ recs B, Filed db.data recs B ∧ ∀ id, toMap recs id = (s'.records id).map fun r => (r.1.data, r.2)) :
    Stands (x.goto t db p) s' := by
  refine ⟨?_, hindex, hdata, fun u k h => hs.key u k (worksOn_of_act ho ha h)⟩
  show Function.update x.phase t p = s'.phase
  rw [hphase, hs.phase]

/-- Index programs leave the data files alone. -/
theorem Stands.same_data (hs : Stands x s) {db : DataBase.State} (h : db.data = x.db.data) :
    ∃ recs B, Filed db.data recs B ∧ ∀ id, toMap recs id = (s.records id).map fun r => (r.1.data, r.2) := by
  rw [h]
  exact hs.data

/-- The record goes. -/
theorem Stands.removes (hs : Stands x s) {id : RecordIDType} (hid : (s.records id).isSome)
    {db : DataBase.State} {r : Unit}
    (hrun : onData true (fun fuel => DataAccessor.removeRecord fuel id) x.db = .ok (r, db)) : Indexed db.index s.index ∧
    ∃ recs B, Filed db.data recs B ∧
      ∀ id', toMap recs id' = ((s.setRecord id none).records id').map fun r => (r.1.data, r.2) := by
  obtain ⟨recs, B, hf, hmap⟩ := hs.data
  obtain ⟨r, hr⟩ := Option.isSome_iff_exists.1 hid
  have hold : toMap recs id = some (r.1.data, r.2) := by
    rw [hmap, hr]
    rfl
  obtain ⟨hindex, recs', hmap', hf'⟩ := ends_ok (removeRecord_ends hf hold) hrun
  refine ⟨hindex ▸ hs.index, recs', B, hf', fun id' => ?_⟩
  rw [hmap', State.setRecord_records]
  by_cases heq : id' = id
  · simp [heq]
  · rw [Function.update_of_ne heq, Function.update_of_ne heq, hmap]

theorem Stands.act [DecidableEq τ] (hs : Stands x s) (ho : Owned s)
    (hread : ∀ k id, s.phase t = .getRecordValue k id → ∃ v, s.records id = some (k, v)) (hfits : x.Fits t)
    (hrun : x.act t = .ok x') : ∃ s', Act s t (s.phase t) s' ∧ Stands x' s' := by
  have howns : ∀ id, (s.phase t).holds = some id → (s.records id).isSome := fun id hid => (ho.held t id hid).1
  -- the step of the maps that the phase asks for, and what the program makes of the files
  have moves : ∀ {p q s' db}, s.phase t = p → Act s t p s' → s'.phase = Function.update s.phase t q →
      Indexed db.index s'.index →
        (∃ recs B, Filed db.data recs B ∧ ∀ id, toMap recs id = (s'.records id).map fun r => (r.1.data, r.2)) →
        ∃ s', Act s t p s' ∧ Stands (x.goto t db q) s' := by
    rintro p q s' db rfl ha hphase hindex hdata
    exact ⟨s', ha, hs.moved ho ha hphase hindex hdata⟩
  unfold OnFiles.act at hrun
  rw [hs.phase] at hrun
  cases hp : s.phase t with
  | idle =>
    rw [hp] at hrun
    cases hrun
  | answered a =>
    rw [hp] at hrun
    cases hrun
  | get k =>
    rw [hp] at hrun
    obtain ⟨r, db, hok, rfl⟩ := bind_ok hrun
    obtain ⟨rfl, hindex, hdata⟩ := ends_ok (getValue_ends hs.index k) hok
    exact moves hp .get rfl hindex (hs.same_data hdata)
  | getRecordValue k id =>
    rw [hp] at hrun
    obtain ⟨r, db, hok, rfl⟩ := bind_ok hrun
    obtain ⟨v, hv⟩ := hread k id hp
    obtain ⟨recs, B, hf, hmap⟩ := hs.data
    have hlive : toMap recs id = some (k.data, v) := by
      rw [hmap, hv]
      rfl
    obtain ⟨rfl, hindex, hf'⟩ := ends_ok (getRecordValue_ends hf hlive) hok
    have hvalue : s.recordValue k id = some v := by
      unfold State.recordValue
      rw [hv]
      exact if_pos rfl
    refine moves hp .getRecordValue ?_ (hindex ▸ hs.index) ⟨recs, B, hf', hmap⟩
    rw [State.goto_phase, hvalue]
  | exist k =>
    rw [hp] at hrun
    obtain ⟨r, db, hok, rfl⟩ := bind_ok hrun
    obtain ⟨rfl, hindex, hdata⟩ := ends_ok (getValue_ends hs.index k) hok
    exact moves hp .exist rfl hindex (hs.same_data hdata)
  | remove k =>
    rw [hp] at hrun
    obtain ⟨r, db, hok, rfl⟩ := bind_ok hrun
    obtain ⟨rfl, hindex, hdata⟩ := ends_ok (remove_ends hs.index k) hok
    cases hk : s.index k with
    | none =>
      rw [← hk, Function.update_eq_self] at hindex
      exact moves hp (.removeNone hk) rfl hindex (hs.same_data hdata)
    | some id => exact moves hp (.remove hk) rfl hindex (hs.same_data hdata)
  | removeRecord id =>
    rw [hp] at hrun
    obtain ⟨r, db, hok, rfl⟩ := bind_ok hrun
    obtain ⟨hindex, hdata⟩ := hs.removes (howns id (by rw [hp]; rfl)) hok
    exact moves hp .removeRecord rfl hindex hdata
  | set k v =>
    rw [hp] at hrun
    obtain ⟨r, db, hok, rfl⟩ := bind_ok hrun
    obtain ⟨rfl, hindex, hdata⟩ := ends_ok (remove_ends hs.index k) hok
    cases hk : s.index k with
    | none =>
      rw [← hk, Function.update_eq_self] at hindex
      exact moves hp (.setNone hk) rfl hindex (hs.same_data hdata)
    | some id => exact moves hp (.set hk) rfl hindex (hs.same_data hdata)
  | setRemoveRecord k v id =>
    rw [hp] at hrun
    obtain ⟨r, db, hok, rfl⟩ := bind_ok hrun
    obtain ⟨hindex, hdata⟩ := hs.removes (howns id (by rw [hp]; rfl)) hok
    exact moves hp .setRemoveRecord rfl hindex hdata
  | setInsertRecord k v =>
    rw [hp] at hrun
    obtain ⟨id, db, hok, rfl⟩ := bind_ok hrun
    rw [OnFiles.Fits, hs.phase, hp] at hfits
    obtain ⟨hsize, hroom⟩ := hfits v rfl
    obtain ⟨recs, B, hf, hmap⟩ := hs.data
    rw [blobBound_eq hf] at hroom
    obtain ⟨hindex, hid, recs', B', hmap', hf'⟩ := ends_ok (insertRecord_ends hf k hsize hroom) hok
    have hfree : s.records id = none := by
      rw [hmap, Option.map_eq_none_iff] at hid
      exact hid
    refine moves hp (.setInsertRecord hfree) rfl (hindex ▸ hs.index) ⟨recs', B', hf', fun id' => ?_⟩
    rw [hmap', State.goto_records, State.setRecord_records]
    by_cases heq : id' = id
    · simp [heq]
    · rw [Function.update_of_ne heq, Function.update_of_ne heq, hmap]
  | setInsert k v id =>
    rw [hp] at hrun
    obtain ⟨b, db, hok, rfl⟩ := bind_ok hrun
    cases hk : s.index k with
    | none =>
      obtain ⟨rfl, hindex, hdata⟩ := ends_ok (insert_ends hs.index hk id) hok
      exact moves hp (.setInsert hk) rfl hindex (hs.same_data hdata)
    | some old =>
      obtain ⟨rfl, hindex, hdata⟩ := ends_ok (insert_taken_ends hs.index hk id) hok
      exact moves hp (.setInsertTaken (by simp [hk])) rfl hindex (hs.same_data hdata)
  | setUndo k v id =>
    rw [hp] at hrun
    obtain ⟨r, db, hok, rfl⟩ := bind_ok hrun
    obtain ⟨hindex, hdata⟩ := hs.removes (howns id (by rw [hp]; rfl)) hok
    exact moves hp .setUndo rfl hindex hdata

/-! ## Each step on the files is one on the maps -/

/-- The event of `Threads`, which does not name the answer. -/
def eventOf : Latched.Event τ Call Answer → Event τ
  | .call t c => .call t c
  | .inside t => .act t
  | .ret t _ => .ret t

theorem start_worksOn {c : Call} {k : RecordKey} (h : c.start.worksOn s k) : c.key = k := by
  cases c <;> exact h

/-- The client's new phase is about its key, and the files are as they were. -/
theorem Stands.goes [DecidableEq τ] (hs : Stands x s) {p : Phase} {k : RecordKey} (hp : ∀ k', p.worksOn s k' → k = k') :
    Stands ⟨x.db, Function.update x.phase t p, Function.update x.key t k⟩ (s.goto t p) := by
  refine ⟨?_, hs.index, hs.data, fun u k' hu => ?_⟩
  · show Function.update x.phase t p = Function.update s.phase t p
    rw [hs.phase]
  · show Function.update x.key t k u = k'
    rw [State.goto_phase] at hu
    by_cases hut : u = t
    · subst hut
      rw [Function.update_self] at hu ⊢
      apply hp
      cases p <;> exact hu
    · rw [Function.update_of_ne hut] at hu ⊢
      apply hs.key u
      generalize s.phase u = q at hu
      cases q <;> exact hu

theorem Stands.step [DecidableEq τ] (hs : Stands x s) (ho : Owned s) {e : Latched.Event τ Call Answer}
    (hread : ∀ t k id, e = .inside t → s.phase t = .getRecordValue k id → ∃ v, s.records id = some (k, v))
    (hfits : ∀ t, e = .inside t → x.Fits t)
    (hnext : x.next e = some x') : ∃ s', Step s (eventOf e) s' ∧ Stands x' s' := by
  cases e with
  | call t c =>
    obtain ⟨hp, rfl⟩ := OnFiles.next_call hnext
    rw [hs.phase] at hp
    exact ⟨_, .call hp, hs.goes fun k hk => start_worksOn hk⟩
  | inside t =>
    obtain ⟨s', ha, hs'⟩ := hs.act ho (fun k id => hread t k id rfl) (hfits t rfl) (OnFiles.next_inside hnext)
    exact ⟨s', .act ha, hs'⟩
  | ret t a =>
    obtain ⟨hp, rfl⟩ := OnFiles.next_ret hnext
    rw [hs.phase] at hp
    have hgoes := hs.goes (t := t) (p := .idle) (k := x.key t) fun k hk => hk.elim
    rw [Function.update_eq_self] at hgoes
    exact ⟨_, .ret hp, hgoes⟩

/-! ## Runs on the files are runs of `Threads` -/

/-- A record that its page finds under the key is there. -/
theorem Stands.finds (hs : Stands x s) {k : RecordKey} {id : RecordIDType} {raw : RawPage} {r : List Byte × Bool}
    (hraw : pageAs x.db.data.cache.store (dataKey id.pageID) FilePage.asData = some raw)
    (hfind : DataFilePage.getRecordValue raw k.data id.slotArrayIndex = some (some r)) :
    ∃ v, s.records id = some (k, v) := by
  obtain ⟨recs, B, ⟨t, ht, book, shelf, lost, free, N, M, hi⟩, hmap⟩ := hs.data
  obtain ⟨h, hh, hid, hkey⟩ : ∃ h ∈ recs, h.id = id ∧ h.key = k.data :=
    hi.finds (by rw [pageAs, ← ht.page]; exact hraw) hfind
  have hlive : toMap recs id = some (k.data, h.value) := (toMap_iff hi.nodup).2 ⟨h, hh, hid, hkey, rfl⟩
  rw [hmap, Option.map_eq_some_iff] at hlive
  obtain ⟨⟨k', v⟩, hrec, heq⟩ := hlive
  obtain ⟨hdata, -⟩ := Prod.mk.inj heq
  obtain rfl : k' = k := DataBase.Agree.key_ext hdata
  exact ⟨v, hrec⟩

/-- `DataBase` is constructed on new files, before any call. -/
def OnFiles.Init (x : OnFiles τ) : Prop :=
  (∃ indexSize dataSize evictsIndex evictsData, x.db = created indexSize dataSize evictsIndex evictsData) ∧
    ∀ t, x.phase t = .idle

/-- A step on the files, one that reads a record that is there, or inserts one that fits. -/
def OnFiles.MeetsStep [DecidableEq τ] (x : OnFiles τ) (e : Latched.Event τ Call Answer) (x' : OnFiles τ) : Prop :=
  (∀ t, e = .inside t → x.Finds t ∧ x.Fits t) ∧ x.next e = some x'

/-- Nobody has called. -/
def newMaps : State τ := ⟨fun _ => none, fun _ => none, fun _ => .idle⟩

theorem OnFiles.Init.stands (h : x.Init) : Stands x (newMaps : State τ) := by
  obtain ⟨⟨indexSize, dataSize, evictsIndex, evictsData, hdb⟩, hidle⟩ := h
  refine ⟨funext hidle, ?_, ?_, fun t k hk => hk.elim⟩
  · rw [hdb]
    exact ⟨_, [], .create _ _, .create _ _⟩
  · rw [hdb]
    exact ⟨[], 1, ⟨newDataStore, .newDataStore, _, _, _, _, _, _, newDataStore_inv⟩, fun _ => rfl⟩

theorem newMaps_init : Init (newMaps : State τ) := ⟨fun _ => rfl, fun _ => rfl, fun _ => rfl⟩

/-- A run on the files, as long as its steps meet the conditions, is a run of `Threads`, and
the files have what its maps have. -/
theorem threads_of_files [DecidableEq τ] {x₀ : OnFiles τ} (hx : x₀.Init)
    {l : List (Latched.Event τ Call Answer × OnFiles τ)}
    (hl : Path OnFiles.MeetsStep x₀ l x) : ∃ l' s, Path Step (newMaps : State τ) l' s ∧
      trace some l' = trace (fun e => some (eventOf e)) l ∧ Stands x s := by
  have hone : ∀ (x : OnFiles τ) e x' s, Stands x s ∧ Owned s → OnFiles.MeetsStep x e x' → ∃ l' s', Path Step s l' s' ∧
      trace some l' = trace (fun e => some (eventOf e)) [(e, x')] ∧ Stands x' s' ∧ Owned s' := by
    rintro x e x' s ⟨hs, ho⟩ ⟨hmeets, hnext⟩
    have hread : ∀ t k id, e = .inside t → s.phase t = .getRecordValue k id → ∃ v, s.records id = some (k, v) := by
      intro t k id he hp
      obtain ⟨raw, r, hraw, hfind⟩ := (hmeets t he).1 k id (by rw [hs.phase, hp])
      exact hs.finds hraw hfind
    obtain ⟨s', hstep, hs'⟩ := hs.step ho hread (fun t he => (hmeets t he).2) hnext
    exact ⟨_, s', .one hstep, rfl, hs', ho.step hstep⟩
  obtain ⟨l', s, hl', htrace, hs, -⟩ := hl.simulate hone ⟨hx.stands, init_owned newMaps_init⟩
  exact ⟨l', s, hl', htrace, hs⟩

/-! ## Calls that keep apart -/

/-- A call begins when all that are at work on its key read it, as it does itself, or nobody
is; and what is inserted fits. -/
def OnFiles.Apart (x : OnFiles τ) : Latched.Event τ Call Answer → Prop
  | .call _ c => ∀ u, x.AtWork c.key u → c.reads ∧ (x.phase u).reads
  | .inside t => x.Fits t
  | .ret _ _ => True

def OnFiles.ApartStep [DecidableEq τ] (x : OnFiles τ) (e : Latched.Event τ Call Answer) (x' : OnFiles τ) : Prop :=
  x.Apart e ∧ x.next e = some x'

theorem Stands.atWork (hs : Stands x s) {k : RecordKey} (h : (s.phase t).worksOn s k) : x.AtWork k t := by
  refine ⟨?_, hs.key t k h⟩
  rw [hs.phase]
  cases hp : s.phase t with
  | idle | answered a =>
    rw [hp] at h
    exact h.elim
  | _ => rfl

/-- Calls that keep apart read only what is there. -/
theorem Sim.reads_live {y : MapState τ} (h : Sim s y) {k : RecordKey} {id : RecordIDType}
    (hp : s.phase t = .getRecordValue k id) : ∃ v, s.records id = some (k, v) := by
  have hfits := h.fits t
  rw [hp] at hfits
  generalize y.phase t = q at hfits
  generalize hx : Phase.getRecordValue k id = p at hfits
  cases hfits with
  | getRecordValue _ hk =>
    cases hx
    exact h.owned.entry _ id hk
  | @start c _ => cases c <;> cases hx
  | _ => cases hx

/-- Steps that keep apart on the files keep apart in `Threads`. -/
theorem Stands.apart [DecidableEq τ] (hs : Stands x s) {y : MapState τ} (hsim : Sim s y)
    {e : Latched.Event τ Call Answer}
    (hstep : OnFiles.ApartStep x e x') : ∃ s', Apart s e s' ∧ Stands x' s' := by
  obtain ⟨hapart, hnext⟩ := hstep
  obtain ⟨s', hstep, hs'⟩ := hs.step hsim.owned (fun t k id _ hp => hsim.reads_live hp)
    (fun t he => by rw [he] at hapart; exact hapart) hnext
  refine ⟨s', ?_, hs'⟩
  cases e with
  | call t c =>
    refine .call (fun u hu => ?_) hstep
    rw [← hs.phase]
    exact hapart u (hs.atWork hu)
  | inside t => exact .inside hstep
  | ret t a =>
    obtain ⟨hp, -⟩ := OnFiles.next_ret hnext
    rw [hs.phase] at hp
    exact .ret hp hstep

/-- While nobody is at work the files hold the map. -/
theorem Stands.holds (hs : Stands x s) {y : MapState τ} (hsim : Sim s y) (hnobody : ∀ t k, ¬ x.AtWork k t) :
    DataBase.Holds x.db y.store := by
  obtain ⟨recs, B, hf, hmap⟩ := hs.data
  have hvalue : ∀ k, valueOf s k = y.store k := fun k => hsim.rest k fun t c ht _ => by
    have hfits := hsim.fits t
    rw [ht] at hfits
    exact hnobody t c.key (hs.atWork hfits.worksOn.1)
  refine ⟨s.index, recs, B, hs.index, hf, fun k id => ?_, fun k => ?_⟩
  · rw [hmap]
    constructor
    · intro hk
      obtain ⟨v, hv⟩ := hsim.owned.entry k id hk
      exact ⟨v, by rw [hv]; rfl⟩
    · rintro ⟨v, hv⟩
      obtain ⟨⟨k', v'⟩, hrec, heq⟩ := Option.map_eq_some_iff.1 hv
      obtain rfl : k' = k := DataBase.Agree.key_ext (Prod.mk.inj heq).1
      apply (hsim.owned.live id k' v' hrec).resolve_right
      rintro ⟨t, ht⟩
      -- who has a record in hand is at work
      refine hnobody t (x.key t) ⟨?_, rfl⟩
      rw [hs.phase]
      cases hp : s.phase t with
      | idle | answered a =>
        rw [hp] at ht
        cases ht
      | _ => rfl
  · rw [← hvalue, valueOf]
    congr 1
    funext id
    rw [hmap]
    cases s.records id <;> rfl

/-- On the files too, as long as no call that writes a key overlaps another call on it, and
what is inserted fits, the calls and returns are those of a finite map whose calls happen
at once; and whenever no client is at work the files hold that map. -/
theorem apart_on_files [DecidableEq τ] {x₀ : OnFiles τ} (hx : x₀.Init)
    {l : List (Latched.Event τ Call Answer × OnFiles τ)} (hl : Path OnFiles.ApartStep x₀ l x) :
    ∃ l' y, Path (Latched.AtomicStep onMap) (Latched.AtomicState.new fun _ => none) l' y ∧
      trace Latched.Event.see l' = trace Latched.Event.see l ∧
      ((∀ t k, ¬ x.AtWork k t) → DataBase.Holds x.db y.store) := by
  have hone : ∀ (x : OnFiles τ) e x' (y : MapState τ), (∃ s, Stands x s ∧ Sim s y) → OnFiles.ApartStep x e x' →
      ∃ l' y', Path (Latched.AtomicStep onMap) y l' y' ∧
        trace Latched.Event.see l' = trace Latched.Event.see [(e, x')] ∧ ∃ s', Stands x' s' ∧ Sim s' y' := by
    rintro x e x' y ⟨s, hs, hsim⟩ hstep
    obtain ⟨s', hapart, hs'⟩ := hs.apart hsim hstep
    obtain ⟨l', y', hl', htrace, hsim'⟩ := hsim.step hapart
    exact ⟨l', y', hl', htrace, s', hs', hsim'⟩
  obtain ⟨l', y, hl', htrace, s, hs, hsim⟩ := hl.simulate hone ⟨newMaps, hx.stands, Sim.init newMaps_init⟩
  exact ⟨l', y, hl', htrace, hs.holds hsim⟩

instance (x : OnFiles τ) (t : τ) : Decidable (x.Fits t) :=
  inferInstanceAs (Decidable (∀ v ∈ (x.phase t).inserts, _ ∧ (_ → _)))

instance (x : OnFiles τ) (k : RecordKey) (t : τ) : Decidable (x.AtWork k t) := inferInstanceAs (Decidable (_ ∧ _))

instance [Fintype τ] (x : OnFiles τ) : (e : Latched.Event τ Call Answer) → Decidable (x.Apart e)
  | .call _ c => inferInstanceAs (Decidable (∀ u, x.AtWork c.key u → c.reads ∧ (x.phase u).reads))
  | .inside t => inferInstanceAs (Decidable (x.Fits t))
  | .ret _ _ => isTrue trivial

end

/-- One client sets key `A` twice, and the other reads key `B` between the steps of the second
set; then both read `A` at once. -/
def twoClients : List (Latched.Event Bool Call Answer) :=
  [.call true (.set [65] [7]), .inside true, .inside true, .inside true, .ret true .wasSet, .call true (.set [65] [8]),
    .inside true, .call false (.get [66]), .inside true, .inside false, .inside true,
      .ret false (.got none), .inside true,
    .ret true .wasSet, .call true (.get [65]), .call false (.exist [65]), .inside true, .inside false, .inside true,
    .ret false (.existed true), .ret true (.got (some [8]))]

/-- Two clients of a new database, with pools of 8 pages. -/
def newFiles : OnFiles Bool := ⟨created8, fun _ => .idle, fun _ => default⟩

theorem apart_on_files_two : ∃ (x : OnFiles Bool) (l' : _) (y : _),
    Path (Latched.AtomicStep onMap) (Latched.AtomicState.new fun _ => none) l' y ∧
    trace Latched.Event.see l' = twoClients.filterMap Latched.Event.see ∧ DataBase.Holds x.db y.store := by
  have hend : ∀ x ∈ follow OnFiles.next (fun x e => decide (x.Apart e)) twoClients newFiles, ∀ t,
      (x.phase t).busy = false := by
    decide +kernel
  obtain ⟨x, hx⟩ : ∃ x, follow OnFiles.next (fun x e => decide (x.Apart e)) twoClients newFiles = some x :=
    Option.isSome_iff_exists.1 (by decide +kernel)
  have hstep : ∀ (x : OnFiles Bool) e x', decide (x.Apart e) = true → x.next e = some x' → x.ApartStep e x' :=
    fun x e x' hok hnext => ⟨of_decide_eq_true hok, hnext⟩
  obtain ⟨l, hl, hevents⟩ := path_of_follow hstep hx
  have hinit : newFiles.Init := ⟨⟨8, 8, _, _, rfl⟩, fun _ => rfl⟩
  obtain ⟨l', y, hl', htrace, hholds⟩ := apart_on_files hinit hl
  refine ⟨x, l', y, hl', ?_, hholds fun t k hwork => ?_⟩
  · rw [htrace, trace_eq, hevents]
  · rw [OnFiles.AtWork, hend x hx t] at hwork
    cases hwork.1

end MisakiDB.DataBase.Threads
