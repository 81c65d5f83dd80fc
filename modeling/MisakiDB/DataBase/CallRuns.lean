import MisakiDB.DataBase.Refinement
/-!
# Runs of calls on a new database

The map takes every call beside the database. As long as each call is allowed, waits for no
frame and its pool loses no map page, the answers are the map's. A pool knows its pins by
counting: that it counts those in its frames, and so waits only when pinned pages have them
all, is `reach_counted`.
-/

namespace MisakiDB.DataBase

open DataAccessor MapEvictions Runs

/-- The database, and the map beside it. -/
structure Twin where
  db : State
  map : RecordKey → Option (List Byte)

/-- `DataBase` is constructed on new files, with pools of these sizes. -/
def created (indexSize dataSize : Nat) (evictsIndex : Nat → List PageIDType) (evictsData : Nat → List PageKey) :
    State :=
  ⟨.new indexSize evictsIndex (.ofFiles (BPlusTree.create LEAF_PAGE_SIZE INTERNAL_PAGE_SIZE)),
    .new dataSize evictsData (.ofFiles newDataStore)⟩

namespace Twin

def Init (s : Twin) : Prop :=
  (∃ indexSize dataSize evictsIndex evictsData, s.db = created indexSize dataSize evictsIndex evictsData) ∧
    s.map = fun _ => none

/-- A call, with its answer. -/
def Step (s : Twin) (e : Call × Answer) (s' : Twin) : Prop :=
  e.1.perform false s.db = .ok (e.2, s'.db) ∧ s'.map = (e.1.onMap s.map).2

/-- The call is allowed, no fetch of it waits for a frame, and its pool evicts no map
page that has changes and a clear dirty bit. -/
def Sound (s : Twin) (c : Call) : Prop :=
  c.Allowed s.db ∧ c.perform true s.db ≠ .error .waits ∧ c.perform true s.db ≠ .error .lost

abbrev SoundStep : Twin → Call × Answer → Twin → Prop := Restrict Step fun s e => s.Sound e.1

end Twin

variable {s s' : Twin}

theorem created_holds (indexSize dataSize : Nat) (evictsIndex : Nat → List PageIDType)
    (evictsData : Nat → List PageKey) :
    Holds (created indexSize dataSize evictsIndex evictsData) fun _ => none := by
  refine ⟨fun _ => none, [], 1, ⟨_, [], .create _ _, .create _ _⟩, ⟨newDataStore, .newDataStore, ?_⟩, ?_⟩
  · exact ⟨_, _, _, _, _, _, newDataStore_inv⟩
  · exact ⟨fun _ _ => by simp [toMap], fun _ => rfl⟩

/-- A sound call has the map's answer, and both hold the same afterwards. -/
theorem perform_sound (h : Holds s.db s.map) {c : Call} (hc : s.Sound c) :
    ∃ db', c.perform false s.db = .ok ((c.onMap s.map).1, db') ∧ Holds db' (c.onMap s.map).2 := by
  obtain ⟨hallowed, hwaits, hlost⟩ := hc
  rcases perform_spec h hallowed with ⟨e, he, hstuck⟩ | ⟨a, db', hrun, rfl, h'⟩
  · cases e with
    | stuck => exact absurd rfl hstuck
    | waits => exact absurd he hwaits
    | lost => exact absurd he hlost
  · exact ⟨db', c.perform_below s.db _ hrun, h'⟩

theorem reach_holds (h : Reach Twin.Init Twin.SoundStep s) : Holds s.db s.map := by
  refine h.inv (I := fun s => Holds s.db s.map) ?_ ?_
  · rintro s ⟨⟨indexSize, dataSize, evictsIndex, evictsData, hdb⟩, hmap⟩
    rw [hdb, hmap]
    exact created_holds indexSize dataSize evictsIndex evictsData
  · rintro s ⟨c, a⟩ s' h ⟨hc, hrun, hmap⟩
    obtain ⟨db', hrun', h'⟩ := perform_sound h hc
    obtain ⟨-, hdb⟩ := Prod.mk.inj (Except.ok.inj (hrun.symm.trans hrun'))
    rw [hdb, hmap]
    exact h'

/-- In every run a call waits for a frame only if pinned pages have them all. -/
theorem reach_counted (h : Reach Twin.Init Twin.Step s) : s.db.Counted := by
  refine h.inv (I := fun s => s.db.Counted) ?_ ?_
  · rintro s ⟨⟨indexSize, dataSize, evictsIndex, evictsData, hdb⟩, -⟩
    rw [hdb]
    exact ⟨Pool.counted_new _ _ _, Pool.counted_new _ _ _⟩
  · rintro s ⟨c, a⟩ s' h ⟨hrun, -⟩
    exact c.perform_keepsCount false s.db a s'.db h hrun

/-- After any run of sound calls, a sound call ends and has the map's answer. -/
theorem calls_answer (h : Reach Twin.Init Twin.SoundStep s) {c : Call} (hc : s.Sound c) :
    ∃ db', c.perform false s.db = .ok ((c.onMap s.map).1, db') := by
  obtain ⟨db', hrun, -⟩ := perform_sound (reach_holds h) hc
  exact ⟨db', hrun⟩

/-- Calls are made, and their answers kept. -/
def answers (watched : Bool) : List Call → State → Option (List Answer × State)
  | [], db => some ([], db)
  | c :: cs, db =>
    match c.perform watched db with
    | .ok (a, db') => (answers watched cs db').map fun r => (a :: r.1, r.2)
    | .error _ => none

theorem answers_cons {watched : Bool} {c : Call} {cs : List Call} {as : List Answer} {db db'' : State}
    (h : answers watched (c :: cs) db = some (as, db'')) :
    ∃ a db' as', c.perform watched db = .ok (a, db') ∧ answers watched cs db' = some (as', db'') ∧ as = a :: as' := by
  unfold answers at h
  split at h
  · rename_i a db' hrun
    obtain ⟨⟨as', u⟩, has, heq⟩ := Option.map_eq_some_iff.1 h
    obtain ⟨rfl, rfl⟩ := Prod.mk.inj heq
    exact ⟨a, db', as', hrun, has, rfl⟩
  · cases h

/-- Pools with frames for 8 pages, which evict the file headers whenever they are unpinned. -/
def created8 : State := created 8 8 (fun _ => [0]) fun _ => [dataKey 0, mapKey 0]

theorem sound_of_ok {c : Call} {r : Answer × State} (hc : c.Allowed s.db) (h : c.perform true s.db = .ok r) :
    s.Sound c := by
  refine ⟨hc, ?_, ?_⟩
  · rw [h]
    nofun
  · rw [h]
    nofun

/-- A value is set and read. -/
theorem calls_answer_one : ∃ s, Reach Twin.Init Twin.SoundStep s ∧
    ∃ db', (Call.get [97]).perform false s.db = .ok (.got (some [1]), db') := by
  have heval : (answers true [.set [97] [1], .get [97]] created8).map Prod.fst = some [.wasSet, .got (some [1])] := by
    decide +kernel
  obtain ⟨⟨as, db2⟩, hrun, -⟩ := Option.map_eq_some_iff.1 heval
  obtain ⟨a, db1, as', hset, hrest, -⟩ := answers_cons hrun
  obtain ⟨b, db2, as'', hget, -, -⟩ := answers_cons hrest
  have hinit : Twin.Init ⟨created8, fun _ => none⟩ := ⟨⟨8, 8, _, _, rfl⟩, rfl⟩
  have hallowed : (Call.set [97] [1]).Allowed created8 := ⟨by decide, by decide, fun h => absurd h (by decide)⟩
  have hsound : Twin.Sound ⟨created8, fun _ => none⟩ (.set [97] [1]) := sound_of_ok hallowed hset
  have hstep : Twin.Step ⟨created8, fun _ => none⟩ (.set [97] [1], a) ⟨db1,
    ((Call.set [97] [1]).onMap fun _ => none).2⟩ :=
    ⟨Call.perform_below (.set [97] [1]) created8 (a, db1) hset, rfl⟩
  have hreach : Reach Twin.Init Twin.SoundStep ⟨db1, ((Call.set [97] [1]).onMap fun _ => none).2⟩ :=
    .next (.start hinit) ⟨hsound, hstep⟩
  obtain ⟨db', hanswer⟩ := calls_answer hreach (c := .get [97]) (sound_of_ok trivial hget)
  have hmap : ((Call.get [97]).onMap ((Call.set [97] [1]).onMap fun _ => none).2).1 = .got (some [1]) := by
    simp [Call.onMap]
  rw [hmap] at hanswer
  exact ⟨_, hreach, db', hanswer⟩

/-- The cut of a long key may leave a space at its end. Then the record is set under a
key without the space, and `get` asks for the one with it. -/
theorem set_misses_get : ¬ ∀ s, Reach Twin.Init Twin.Step s →
    ∀ c : Call, ∃ db', c.perform false s.db = .ok ((c.onMap s.map).1, db') := by
  intro h
  have heval : (answers false [.set (List.replicate 23 97 ++ [32, 98]) [1], .get (List.replicate 23 97 ++ [32, 98])]
      created8).map Prod.fst = some [.wasSet, .got none] := by decide +kernel
  obtain ⟨⟨as, db2⟩, hrun, has⟩ := Option.map_eq_some_iff.1 heval
  obtain ⟨a, db1, as', hset, hrest, rfl⟩ := answers_cons hrun
  obtain ⟨b, db2, as'', hget, -, rfl⟩ := answers_cons hrest
  simp only [List.cons.injEq] at has
  obtain ⟨-, rfl, -⟩ := has
  have hinit : Twin.Init ⟨created8, fun _ => none⟩ := ⟨⟨8, 8, _, _, rfl⟩, rfl⟩
  have hstep : Twin.Step ⟨created8, fun _ => none⟩ (.set (List.replicate 23 97 ++ [32, 98]) [1], a)
      ⟨db1, ((Call.set (List.replicate 23 97 ++ [32, 98]) [1]).onMap fun _ => none).2⟩ := ⟨hset, rfl⟩
  have hreach : Reach Twin.Init Twin.Step ⟨db1,
    ((Call.set (List.replicate 23 97 ++ [32, 98]) [1]).onMap fun _ => none).2⟩ :=
    .next (.start hinit) hstep
  obtain ⟨db', hanswer⟩ := h _ hreach (.get (List.replicate 23 97 ++ [32, 98]))
  rw [hget] at hanswer
  simp [Call.onMap] at hanswer

end MisakiDB.DataBase
