import MisakiDB.DataBase.Calls
/-!
# A database is a finite map

Between two calls the index is a map from keys to record ids (`Indexed`), the data
files hold records under their ids (`Filed`), and both together are the map that the
calls are meant to keep (`Agree`). Each call does to them what it does to the map:
`perform_spec`.
-/

namespace MisakiDB.DataBase

open Prog DataAccessor MapEvictions Runs

/-! ## Programs that end, unless a pool is too small or loses a page -/

def Ends {α : Type} (x : DataBaseM α) (Q : α → State → Prop) (db : State) : Prop :=
  (∃ e, x db = .error e ∧ e ≠ .stuck) ∨ ∃ a db', x db = .ok (a, db') ∧ Q a db'

section
variable {α β : Type} {x : DataBaseM α} {f : α → DataBaseM β} {db : State}

theorem Ends.pure {a : α} {Q : α → State → Prop} (h : Q a db) : Ends (pure a) Q db := .inr ⟨a, db, rfl, h⟩

theorem Ends.bind {Q' : α → State → Prop} {Q : β → State → Prop} (hx : Ends x Q' db)
    (hf : ∀ a db', Q' a db' → Ends (f a) Q db') : Ends (x >>= f) Q db := by
  have hbind : (x >>= f) db = x db >>= fun r => f r.1 r.2 := rfl
  rcases hx with ⟨e, hx, he⟩ | ⟨a, db', hx, hq⟩
  · refine .inl ⟨e, ?_, he⟩
    rw [hbind, hx]
    rfl
  · rcases hf a db' hq with ⟨e, hf, he⟩ | ⟨b, db'', hf, hq'⟩
    · refine .inl ⟨e, ?_, he⟩
      rw [hbind, hx]
      exact hf
    · refine .inr ⟨b, db'', ?_, hq'⟩
      rw [hbind, hx]
      exact hf

theorem Ends.mono {Q Q' : α → State → Prop} (h : Ends x Q db) (hq : ∀ a db', Q a db' → Q' a db') : Ends x Q' db :=
  h.imp_right fun ⟨a, db', hx, h⟩ => ⟨a, db', hx, hq a db' h⟩

end

/-! ## What lies behind a database -/

/-- The index file holds a tree with these entries. -/
def Indexed (d : IndexPool) (ids : RecordKey → Option RecordIDType) : Prop :=
  ∃ s orphans, StandsFor d.cache s ∧ TreeInv LEAF_PAGE_SIZE INTERNAL_PAGE_SIZE s ids orphans

/-- The data, map and blob files hold the records. -/
def Files (t : DataStore) (recs : List Held) (B : Nat) : Prop :=
  ∃ book shelf lost free N M, Inv t recs book shelf lost free N M B

def Filed (d : DataPool) (recs : List Held) (B : Nat) : Prop := ∃ t, StandsBy d.cache t ∧ Files t recs B

/-- The entries are the records' ids under their keys, and the records' values are those
of the map. -/
structure Agree (ids : RecordKey → Option RecordIDType) (records : RecordIDType → Option (List Byte × List Byte))
    (m : RecordKey → Option (List Byte)) : Prop where
  entry : ∀ k id, ids k = some id ↔ ∃ v, records id = some (k.data, v)
  value : ∀ k, m k = (ids k).bind fun id => (records id).map Prod.snd

namespace Agree
variable {ids : RecordKey → Option RecordIDType} {records : RecordIDType → Option (List Byte × List Byte)}
  {m : RecordKey → Option (List Byte)} {k k' : RecordKey} {id : RecordIDType}

theorem key_ext (h : k.data = k'.data) : k = k' := by
  cases k
  cases k'
  subst h
  rfl

theorem of_some (h : Agree ids records m) (hk : ids k = some id) :
    ∃ v, records id = some (k.data, v) ∧ m k = some v := by
  obtain ⟨v, hv⟩ := (h.entry k id).1 hk
  exact ⟨v, hv, by rw [h.value, hk, Option.bind_some, hv]; rfl⟩

theorem of_none (h : Agree ids records m) (hk : ids k = none) : m k = none := by
  rw [h.value, hk]
  rfl

theorem isSome (h : Agree ids records m) (k : RecordKey) : (m k).isSome = (ids k).isSome := by
  cases hk : ids k with
  | none => rw [h.of_none hk]; rfl
  | some id =>
    obtain ⟨v, -, hv⟩ := h.of_some hk
    rw [hv]
    rfl

/-- A key that is nowhere is not in the map. -/
theorem removed_none (h : Agree ids records m) (hk : ids k = none) : Function.update m k none = m := by
  rw [← h.of_none hk, Function.update_eq_self]

/-- No two keys have one record. -/
theorem key_unique (h : Agree ids records m) (hk : ids k = some id) (hk' : ids k' = some id) : k = k' := by
  obtain ⟨v, hv⟩ := (h.entry k id).1 hk
  obtain ⟨v', hv'⟩ := (h.entry k' id).1 hk'
  rw [hv, Option.some.injEq, Prod.mk.injEq] at hv'
  exact key_ext hv'.1

/-- The entry and its record go. -/
theorem remove (h : Agree ids records m) (hk : ids k = some id) :
    Agree (Function.update ids k none) (Function.update records id none) (Function.update m k none) := by
  constructor
  · intro k' id'
    by_cases hkk : k' = k
    · subst hkk
      simp only [Function.update_self, reduceCtorEq, false_iff, not_exists]
      intro v hv
      by_cases hid : id' = id
      · subst hid
        simp at hv
      · rw [Function.update_of_ne hid] at hv
        have := (h.entry k' id').2 ⟨v, hv⟩
        exact hid (Option.some.inj (this.symm.trans hk))
    · rw [Function.update_of_ne hkk]
      by_cases hid : id' = id
      · subst hid
        simp only [Function.update_self, reduceCtorEq, exists_false, iff_false]
        exact fun hk' => hkk (h.key_unique hk' hk)
      · rw [Function.update_of_ne hid]
        exact h.entry k' id'
  · intro k'
    by_cases hkk : k' = k
    · simp [hkk]
    · rw [Function.update_of_ne hkk, Function.update_of_ne hkk, h.value]
      cases hk' : ids k' with
      | none => rfl
      | some id' =>
        have hid : id' ≠ id := by
          rintro rfl
          exact hkk (h.key_unique hk' hk)
        simp [hid]

/-- A new record and its entry. -/
theorem insert (h : Agree ids records m) (hk : ids k = none) (hid : records id = none) (v : List Byte) :
    Agree (Function.update ids k (some id)) (Function.update records id (some (k.data, v)))
    (Function.update m k (some v)) := by
  constructor
  · intro k' id'
    by_cases hkk : k' = k
    · subst hkk
      rw [Function.update_self, Option.some.injEq]
      -- the record is new, so no other key can own it
      by_cases hii : id' = id
      · simp [hii]
      · rw [Function.update_of_ne hii]
        refine ⟨fun heq => absurd heq.symm hii, fun hv => ?_⟩
        rw [(h.entry k' id').2 hv] at hk
        cases hk
    · rw [Function.update_of_ne hkk]
      by_cases hii : id' = id
      · subst hii
        have hold : ids k' ≠ some id' := fun hk' => by
          obtain ⟨v', hv'⟩ := (h.entry k' id').1 hk'
          rw [hid] at hv'
          cases hv'
        simp only [hold, Function.update_self, Option.some.injEq, Prod.mk.injEq, false_iff, not_exists, not_and]
        exact fun _ hdata _ => hkk (key_ext hdata.symm)
      · rw [Function.update_of_ne hii]
        exact h.entry k' id'
  · intro k'
    by_cases hkk : k' = k
    · simp [hkk]
    · rw [Function.update_of_ne hkk, Function.update_of_ne hkk, h.value]
      cases hk' : ids k' with
      | none => rfl
      | some id' =>
        have hii : id' ≠ id := by
          rintro rfl
          obtain ⟨v', hv', -⟩ := h.of_some hk'
          rw [hid] at hv'
          cases hv'
        simp [hii]

end Agree

/-! ## Programs on the files -/

section
variable {db : State} {ids : RecordKey → Option RecordIDType} {recs : List Held} {B : Nat} {m : RecordKey → Option (List Byte)}

/-- The index gives the answer of a finite map, and the data is left alone. -/
theorem onIndex_ends {α : Type} {p : Nat → IndexProg RecordKey RecordIDType α}
    (c : MisakiDB.Call RecordKey RecordIDType)
    {f : α → MisakiDB.Answer RecordIDType} (hf : Function.Injective f)
    (hc : ∀ fuel, c.prog fuel = do pure (f (← p fuel)))
    (hp : ∀ fuel (t : TrackedTree RecordKey RecordIDType), Clean 0 t → wlp tracked (p fuel) (fun _ t' => Clean 0 t') t)
    (h : Indexed db.index ids) {a : α} (ha : f a = (c.onMap ids).1) :
    Ends (onIndex p) (fun r db' => r = a ∧ Indexed db'.index (c.onMap ids).2 ∧ db'.data = db.data) db := by
  obtain ⟨s, orphans, hs, hi⟩ := h
  obtain ⟨s', hrun, hi', -⟩ := hi.call (by decide) c
  rw [MisakiDB.call, hc, ← ha] at hrun
  obtain ⟨cache, hcache, hs'⟩ := hs.run db.index.evicts (hp (bound s)) (of_run_then hf hrun)
  unfold Ends onIndex
  rw [hs.store]
  rcases Pool.perform_of_run hcache with hwaits | ⟨pins, hrun'⟩
  · rw [hwaits]
    exact .inl ⟨.waits, rfl, fun h => by cases h⟩
  · rw [hrun']
    exact .inr ⟨a, _, rfl, rfl, ⟨s', _, hs', hi'⟩, rfl⟩

theorem getValue_ends (h : Indexed db.index ids) (k : RecordKey) :
    Ends (onIndex fun fuel => BPlusTree.getValue fuel k)
      (fun r db' => r = ids k ∧ Indexed db'.index ids ∧ db'.data = db.data) db :=
  onIndex_ends (.getValue k) (fun _ _ => MisakiDB.Answer.found.inj) (fun _ => rfl)
    (fun fuel _ ht => ht.getValue fuel k) h rfl

/-- The tree compares keys by their order. -/
theorem onMap_remove (ids : RecordKey → Option RecordIDType) (k : RecordKey) :
    MisakiDB.Call.onMap ids (.remove k) = (.found (ids k), Function.update ids k none) := by
  simp only [MisakiDB.Call.onMap, Prod.mk.injEq, true_and]
  congr!

theorem onMap_insert {ids : RecordKey → Option RecordIDType} {k : RecordKey} (hk : ids k = none) (id : RecordIDType) :
    MisakiDB.Call.onMap ids (.insert k id) = (.inserted true, Function.update ids k (some id)) := by
  simp only [MisakiDB.Call.onMap, hk, Prod.mk.injEq, true_and]
  congr!

theorem remove_ends (h : Indexed db.index ids) (k : RecordKey) :
    Ends (onIndex fun fuel => BPlusTree.remove fuel k)
      (fun r db' => r = ids k ∧ Indexed db'.index (Function.update ids k none) ∧ db'.data = db.data) db := by
  have hends := onIndex_ends (.remove k) (fun _ _ => MisakiDB.Answer.found.inj) (fun _ => rfl)
    (fun fuel _ ht => ht.remove fuel k) h
    (a := ids k) (by rw [onMap_remove])
  rwa [onMap_remove] at hends

theorem insert_ends (h : Indexed db.index ids) {k : RecordKey} (hk : ids k = none) (id : RecordIDType) :
    Ends (onIndex fun fuel => BPlusTree.insert fuel k id)
      (fun r db' => r = true ∧ Indexed db'.index (Function.update ids k (some id)) ∧ db'.data = db.data) db := by
  have hends := onIndex_ends (.insert k id) (fun _ _ => MisakiDB.Answer.inserted.inj) (fun _ => rfl)
    (fun fuel _ ht => ht.insert fuel k id) h (a := true) (by rw [onMap_insert hk])
  rwa [onMap_insert hk] at hends

/-- A key that has an entry keeps it. -/
theorem insert_taken_ends (h : Indexed db.index ids) {k : RecordKey} {old : RecordIDType} (hk : ids k = some old)
    (id : RecordIDType) : Ends (onIndex fun fuel => BPlusTree.insert fuel k id)
      (fun r db' => r = false ∧ Indexed db'.index ids ∧ db'.data = db.data) db := by
  have htaken : MisakiDB.Call.onMap ids (.insert k id) = (.inserted false, ids) := by
    simp only [MisakiDB.Call.onMap, hk]
  have hends := onIndex_ends (.insert k id) (fun _ _ => MisakiDB.Answer.inserted.inj) (fun _ => rfl)
    (fun fuel _ ht => ht.insert fuel k id) h (a := false) (by rw [htaken])
  rwa [htaken] at hends

theorem blobBound_eq (h : Filed db.data recs B) : db.blobBound = B := by
  obtain ⟨t, ht, book, shelf, lost, free, N, M, hi⟩ := h
  simp [State.blobBound, RecordState.bound, ht.page, hi.blobs.header]

/-- A program that ends on the store ends on the watched pool, unless that loses a page. -/
theorem onData_ends {α : Type} {p : Nat → DataProg α} {Q : α → DataStore → Prop} (h : Filed db.data recs B)
    (hp : ∀ fuel t, Promised 0 0 t → wlp trackedFiles (p fuel) (fun _ t' => Promised 0 0 t') t)
    (hrun : ∀ t, Files t recs B → wp PageStore.exec (p B) Q t) :
    Ends (onData true p) (fun a db' => db'.index = db.index ∧ ∃ t, StandsBy db'.data.cache t ∧ Q a t) db := by
  have hB := blobBound_eq h
  obtain ⟨t, ht, hfiles⟩ := h
  obtain ⟨a, t', hr, hq⟩ := hrun t hfiles
  unfold Ends onData
  rw [hB, Bool.true_and]
  cases hgo : Cache.stops mapPages db.data.evicts (p B) db.data.cache with
  | true => exact .inl ⟨.lost, rfl, nofun⟩
  | false =>
    rw [if_neg Bool.false_ne_true]
    obtain ⟨cache, hcache, ht'⟩ := ht.run (hp B) hr hgo
    rcases Pool.perform_of_run hcache with hwaits | ⟨pins, hrun'⟩
    · rw [hwaits]
      exact .inl ⟨.waits, rfl, nofun⟩
    · rw [hrun']
      exact .inr ⟨a, _, rfl, rfl, t', ht', hq⟩

theorem getRecordValue_ends (h : Filed db.data recs B) {k : RecordKey} {id : RecordIDType} {v : List Byte}
    (hid : toMap recs id = some (k.data, v)) :
    Ends (onData true fun fuel => getRecordValue fuel k.data id)
      (fun r db' => r = some v ∧ db'.index = db.index ∧ Filed db'.data recs B) db := by
  obtain ⟨front, x, back, rfl, rfl, hkey, rfl⟩ := toMap_eq_some hid
  refine (onData_ends (Q := fun r t => r = some x.value ∧ Files t (front ++ x :: back) B) h
    (fun fuel t ht => getRecordValue_promised fuel _ _ ht) ?_).mono ?_
  · rintro t ⟨book, shelf, lost, free, N, M, hi⟩
    rw [← hkey]
    apply wp_conseq (getRecordValue_spec hi (by simp) le_rfl)
    rintro r t' ⟨hr, hpage, -, hheld⟩
    exact ⟨hr, book, shelf, lost, free, N, M, hi.frame_all (hheld.idle hi.idle) hpage⟩
  · rintro r db' ⟨hindex, t, ht, hr, hfiles⟩
    exact ⟨hr, hindex, t, ht, hfiles⟩

theorem removeRecord_ends (h : Filed db.data recs B) {id : RecordIDType} {kv : List Byte × List Byte}
    (hid : toMap recs id = some kv) :
    Ends (onData true fun fuel => removeRecord fuel id)
      (fun _ db' => db'.index = db.index ∧ ∃ recs', toMap recs' = Function.update (toMap recs) id none ∧
      Filed db'.data recs' B)
      db := by
  obtain ⟨front, x, back, rfl, rfl, -, -⟩ := toMap_eq_some hid
  refine (onData_ends (Q := fun _ t => Files t (front ++ back) B ∧
      toMap (front ++ back) = Function.update (toMap (front ++ x :: back)) x.id none) h
    (fun fuel t ht => removeRecord_promised fuel _ ht) ?_).mono ?_
  · rintro t ⟨book, shelf, lost, free, N, M, hi⟩
    apply wp_conseq (removeRecord_spec hi le_rfl)
    rintro _ t' ⟨-, free', hi'⟩
    exact ⟨⟨_, _, _, _, _, _, hi'⟩, toMap_remove hi.nodup⟩
  · rintro _ db' ⟨hindex, t, ht, hfiles, hmap⟩
    exact ⟨hindex, front ++ back, hmap, t, ht, hfiles⟩

theorem insertRecord_ends (h : Filed db.data recs B) (k : RecordKey) {v : List Byte} (hfits : DataAccessor.Fits v)
    (hB : DataFilePage.MAX_RECORD_SIZE < v.length → B < 2 ^ 32 - 1) :
    Ends (onData true fun _ => insertRecord k.data v)
      (fun id db' => db'.index = db.index ∧ toMap recs id = none ∧ ∃ recs' B',
        toMap recs' = Function.update (toMap recs) id (some (k.data, v)) ∧ Filed db'.data recs' B') db := by
  refine (onData_ends (Q := fun id t => toMap recs id = none ∧ ∃ recs' B',
      toMap recs' = Function.update (toMap recs) id (some (k.data, v)) ∧ Files t recs' B') h
    (fun _ t ht => insertRecord_promised _ _ ht) ?_).mono ?_
  · rintro t ⟨book, shelf, lost, free, N, M, hi⟩
    obtain ⟨⟨id, t'⟩, hr⟩ := insertRecord_returns hi k.size_eq hfits hB
    obtain ⟨chain, free', N', M', B', -, -, -, -, hi'⟩ := insertRecord_spec hi hfits _ _ hr
    refine ⟨id, t', hr, ?_, _, B', toMap_cons _ _, _, _, _, _, _, _, hi'⟩
    -- the id is new
    have hnd := hi'.nodup
    rw [List.map_cons, List.nodup_cons] at hnd
    rw [toMap, Option.map_eq_none_iff, List.find?_eq_none]
    intro x hx
    have hne : x.id ≠ id := fun heq => hnd.1 (List.mem_map.2 ⟨x, hx, heq⟩)
    simpa using hne
  · rintro id db' ⟨hindex, t, ht, hid, recs', B', hmap, hfiles⟩
    exact ⟨hindex, hid, recs', B', hmap, t, ht, hfiles⟩

theorem construct_ends (h : Indexed db.index ids) (hf : Filed db.data recs B) (evictsIndex : Nat → List PageIDType)
    (evictsData : Nat → List PageKey) :
    Ends (reopen evictsIndex evictsData) (fun _ db' => Indexed db'.index ids ∧ Filed db'.data recs B) db := by
  obtain ⟨s, orphans, hs, hi⟩ := h
  obtain ⟨cache, hcache, hs'⟩ := hs.reconstruct hi evictsIndex LEAF_PAGE_SIZE INTERNAL_PAGE_SIZE
  -- the tree is made with the sizes it had
  have hmember : s.reopen.withMember ⟨s.member.rootPageID, LEAF_PAGE_SIZE, INTERNAL_PAGE_SIZE⟩ = s.reopen := by
    rw [← hi.leafMax, ← hi.internalMax]
    rfl
  rw [hmember] at hs'
  obtain ⟨t, ht, book, shelf, lost, free, N, M, hinv⟩ := hf
  have hidle : Idle (t.reopen.withMember ⟨0⟩) := fun _ => rfl
  have hfiled : Filed (.new db.data.poolSize evictsData { db.data.cache.reopen with member := ⟨0⟩ }) recs B :=
    ⟨_, ht.reopen ⟨0⟩, book, shelf, lost, free, N, M, hinv.frame_all hidle rfl⟩
  unfold Ends reopen
  rcases Pool.perform_of_run (d := .new db.index.poolSize evictsIndex db.index.cache.reopen) hcache with
    hwaits | ⟨pins, hrun⟩
  · rw [hwaits]
    exact .inl ⟨.waits, rfl, nofun⟩
  · rw [hrun]
    exact .inr ⟨(), _, rfl, ⟨s.reopen, orphans, hs', hi.reopen⟩, hfiled⟩

end

/-! ## The calls -/

/-- The database holds the map. -/
def Holds (db : State) (m : RecordKey → Option (List Byte)) : Prop :=
  ∃ ids recs B, Indexed db.index ids ∧ Filed db.data recs B ∧ Agree ids (toMap recs) m

/-- The key of a `set` is the same when it is processed again, its record fits in a page
or is a blob's, and a blob has a page id. -/
def Call.Allowed (db : State) : Call → Prop
  | set key value => CutClean key ∧ DataAccessor.Fits value ∧
    (DataFilePage.MAX_RECORD_SIZE < value.length → db.blobBound < 2 ^ 32 - 1)
  | _ => True

instance (db : State) : DecidablePred (Call.Allowed db)
  | .set key value => inferInstanceAs (Decidable (CutClean key ∧ DataAccessor.Fits value ∧ (_ → _)))
  | .get _ | .remove _ | .exist _ | .reopen _ _ => .isTrue trivial

section
variable {db : State} {ids : RecordKey → Option RecordIDType} {recs : List Held} {B : Nat} {m : RecordKey → Option (List Byte)}

theorem Holds.get (h : Holds db m) (key : List Byte) :
    Ends (DataBase.get true key) (fun r db' => r = m (processKey key) ∧ Holds db' m) db := by
  obtain ⟨ids, recs, B, hi, hf, ha⟩ := h
  unfold DataBase.get
  apply (getValue_ends hi _).bind
  rintro r db1 ⟨rfl, hi1, hdata⟩
  rw [← hdata] at hf
  cases hk : ids (processKey key) with
  | none => exact .pure ⟨(ha.of_none hk).symm, ids, recs, B, hi1, hf, ha⟩
  | some id =>
    obtain ⟨v, hv, hm⟩ := ha.of_some hk
    apply (getRecordValue_ends hf hv).mono
    rintro r db2 ⟨rfl, hindex, hf2⟩
    rw [← hindex] at hi1
    exact ⟨hm.symm, ids, recs, B, hi1, hf2, ha⟩

/-- The key has no entry afterwards, and the blob file is as long as it was. -/
theorem removeKey_ends (hi : Indexed db.index ids) (hf : Filed db.data recs B) (ha : Agree ids (toMap recs) m)
    (key : List Byte) :
    Ends (DataBase.remove true key) (fun r db' => r = (m (processKey key)).isSome ∧
    ∃ ids' recs', ids' (processKey key) = none ∧
      Indexed db'.index ids' ∧ Filed db'.data recs' B ∧ Agree ids' (toMap recs')
      (Function.update m (processKey key) none)) db := by
  unfold DataBase.remove
  apply (remove_ends hi _).bind
  rintro r db1 ⟨rfl, hi1, hdata⟩
  rw [← hdata] at hf
  rw [ha.isSome]
  cases hk : ids (processKey key) with
  | none =>
    rw [← hk, Function.update_eq_self] at hi1
    refine .pure ⟨rfl, ids, recs, hk, hi1, hf, ?_⟩
    rwa [ha.removed_none hk]
  | some id =>
    obtain ⟨v, hv, -⟩ := ha.of_some hk
    apply (removeRecord_ends hf hv).bind
    rintro - db2 ⟨hindex, recs', hmap, hf2⟩
    rw [← hindex] at hi1
    refine .pure ⟨rfl, _, recs', Function.update_self _ _ _, hi1, hf2, ?_⟩
    rw [hmap]
    exact ha.remove hk

theorem Holds.remove (h : Holds db m) (key : List Byte) : Ends (DataBase.remove true key)
    (fun r db' => r = (m (processKey key)).isSome ∧ Holds db' (Function.update m (processKey key) none)) db := by
  obtain ⟨ids, recs, B, hi, hf, ha⟩ := h
  apply (removeKey_ends hi hf ha key).mono
  rintro r db' ⟨hr, ids', recs', -, hi', hf', ha'⟩
  exact ⟨hr, ids', recs', B, hi', hf', ha'⟩

theorem Holds.exist (h : Holds db m) (key : List Byte) :
    Ends (DataBase.exist key) (fun r db' => r = (m (processKey key)).isSome ∧ Holds db' m) db := by
  obtain ⟨ids, recs, B, hi, hf, ha⟩ := h
  unfold DataBase.exist
  apply (getValue_ends hi _).bind
  rintro r db1 ⟨rfl, hi1, hdata⟩
  rw [← hdata] at hf
  exact .pure ⟨(ha.isSome _).symm, ids, recs, B, hi1, hf, ha⟩

/-- The old record goes, and the new one gets the entry of the key. -/
theorem Holds.set (h : Holds db m) {key value : List Byte} (hok : (Call.set key value).Allowed db) :
    Ends (DataBase.set true key value) (fun _ db' => Holds db' (Function.update m (processKey key) (some value))) db := by
  obtain ⟨hclean, hfits, hroom⟩ := hok
  have hkey := (processKey_processKey_iff key).2 hclean
  obtain ⟨ids, recs, B, hi, hf, ha⟩ := h
  rw [blobBound_eq hf] at hroom
  unfold DataBase.set
  apply (removeKey_ends hi hf ha (processKey key).data).bind
  rw [hkey]
  rintro - db1 ⟨-, ids1, recs1, hnone, hi1, hf1, ha1⟩
  apply (insertRecord_ends hf1 (processKey key) hfits hroom).bind
  rintro id db2 ⟨hindex, hid, recs2, B2, hmap, hf2⟩
  rw [← hindex] at hi1
  apply (insert_ends hi1 hnone id).bind
  rintro _ db3 ⟨rfl, hi3, hdata⟩
  rw [← hdata] at hf2
  refine .pure ⟨_, recs2, B2, hi3, hf2, ?_⟩
  have hnew := ha1.insert hnone hid value
  rwa [Function.update_idem, ← hmap] at hnew

theorem Holds.reopen (h : Holds db m) (evictsIndex : Nat → List PageIDType) (evictsData : Nat → List PageKey) :
    Ends (DataBase.reopen evictsIndex evictsData) (fun _ db' => Holds db' m) db := by
  obtain ⟨ids, recs, B, hi, hf, ha⟩ := h
  apply (construct_ends hi hf evictsIndex evictsData).mono
  rintro - db' ⟨hi', hf'⟩
  exact ⟨ids, recs, B, hi', hf', ha⟩

/-- Each call does to the database what it does to the map. -/
theorem perform_spec (h : Holds db m) {c : Call} (hok : c.Allowed db) :
    Ends (c.perform true) (fun a db' => a = (c.onMap m).1 ∧ Holds db' (c.onMap m).2) db := by
  cases c with
  | get key => exact (h.get key).bind fun r db' ⟨hr, h'⟩ => .pure ⟨congrArg Answer.got hr, h'⟩
  | set key value => exact (h.set hok).bind fun _ db' h' => .pure ⟨rfl, h'⟩
  | remove key => exact (h.remove key).bind fun r db' ⟨hr, h'⟩ => .pure ⟨congrArg Answer.removed hr, h'⟩
  | exist key => exact (h.exist key).bind fun r db' ⟨hr, h'⟩ => .pure ⟨congrArg Answer.existed hr, h'⟩
  | reopen evictsIndex evictsData => exact (h.reopen evictsIndex evictsData).bind fun _ db' h' => .pure ⟨rfl, h'⟩

end

end MisakiDB.DataBase
