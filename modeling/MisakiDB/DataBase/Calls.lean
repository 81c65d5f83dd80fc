import MisakiDB.Buffer.PoolSize
import MisakiDB.DataBase.Key
import MisakiDB.Data.RecordPools
import MisakiDB.Data.RecordRuns
import MisakiDB.Index.ArrayPages
import MisakiDB.Index.Evictions
/-!
# Calls of `DataBase` on its files

A call is made of programs on the two buffer pools, and between two calls the database
may be closed and opened again. What each pool evicts at its `n`-th fetch or append is
a choice of the run.
-/

namespace MisakiDB.DataBase

open Prog DataAccessor MapEvictions

abbrev IndexPool := Pool PageIDType (IndexPage RecordKey RecordIDType) BPlusTree

abbrev DataPool := Pool PageKey FilePage DataAccessor

structure State where
  index : IndexPool
  data : DataPool

abbrev DataBaseM := StateT State (Except Failure)

/-- No chain is longer than the number of blob pages. -/
def State.blobBound (db : State) : Nat := RecordState.bound ⟨db.data.cache.store, fun _ => none⟩

/-! ## `DataBase` -/

/-- A program on the index file, with a bound for its loops. -/
def onIndex {α : Type} (p : Nat → IndexProg RecordKey RecordIDType α) : DataBaseM α := fun db => do
  let (a, index) ← db.index.perform (p (bound db.index.cache.store))
  pure (a, { db with index })

/-- A program on the data, map and blob files. -/
def onData (watched : Bool) {α : Type} (p : Nat → DataProg α) : DataBaseM α := fun db =>
  if watched && Cache.stops mapPages db.data.evicts (p db.blobBound) db.data.cache then .error .lost
  else do
    let (a, data) ← db.data.perform (p db.blobBound)
    pure (a, { db with data })

section
variable (watched : Bool)

def get (key : List Byte) : DataBaseM (Option (List Byte)) := do
  let key := processKey key
  match ← onIndex fun fuel => BPlusTree.getValue fuel key with
  | none => pure none
  | some recordID => onData watched fun fuel => getRecordValue fuel key.data recordID

def remove (key : List Byte) : DataBaseM Bool := do
  let key := processKey key
  match ← onIndex fun fuel => BPlusTree.remove fuel key with
  | none => pure false
  | some recordID => do
    onData watched fun fuel => removeRecord fuel recordID
    pure true

def exist (key : List Byte) : DataBaseM Bool := do
  pure (← onIndex fun fuel => BPlusTree.getValue fuel (processKey key)).isSome

/-- `remove` processes the key in the string of `set`. -/
def set (key value : List Byte) : DataBaseM Unit := do
  let key := processKey key
  let _ ← remove watched key.data
  let key := processKey key.data
  let recordID ← onData watched fun _ => insertRecord key.data value
  let inserted ← onIndex fun fuel => BPlusTree.insert fuel key recordID
  if inserted then pure () else onData watched fun fuel => removeRecord fuel recordID

/-- The database is closed, which writes what the pools have to the files, and opened
again. -/
def reopen (evictsIndex : Nat → List PageIDType) (evictsData : Nat → List PageKey) : DataBaseM Unit := fun db => do
  let (_, index) ← (Pool.new db.index.poolSize evictsIndex db.index.cache.reopen).perform
    (BPlusTree.construct LEAF_PAGE_SIZE INTERNAL_PAGE_SIZE)
  pure ((), ⟨index, .new db.data.poolSize evictsData { db.data.cache.reopen with member := ⟨0⟩ }⟩)

end

/-! ## Calls, and what they mean -/

inductive Call
  | get (key : List Byte)
  | set (key value : List Byte)
  | remove (key : List Byte)
  | exist (key : List Byte)
  | reopen (evictsIndex : Nat → List PageIDType) (evictsData : Nat → List PageKey)

inductive Answer
  | got (value : Option (List Byte))
  | wasSet
  | removed (b : Bool)
  | existed (b : Bool)
  | reopened
  deriving DecidableEq

def Call.perform (watched : Bool) : Call → DataBaseM Answer
  | get key => do pure (.got (← DataBase.get watched key))
  | set key value => do
    DataBase.set watched key value
    pure .wasSet
  | remove key => do pure (.removed (← DataBase.remove watched key))
  | exist key => do pure (.existed (← DataBase.exist key))
  | reopen evictsIndex evictsData => do
    DataBase.reopen evictsIndex evictsData
    pure .reopened

/-- What a call does to a finite map from processed keys to values. -/
def Call.onMap (m : RecordKey → Option (List Byte)) : Call → Answer × (RecordKey → Option (List Byte))
  | get key => (.got (m (processKey key)), m)
  | set key value => (.wasSet, Function.update m (processKey key) (some value))
  | remove key => (.removed (m (processKey key)).isSome, Function.update m (processKey key) none)
  | exist key => (.existed (m (processKey key)).isSome, m)
  | reopen _ _ => (.reopened, m)

/-! ## A watched call -/

/-- What a watched call does, it does unwatched. -/
def Below {α : Type} (x y : DataBaseM α) : Prop := ∀ db r, x db = .ok r → y db = .ok r

theorem Below.refl {α : Type} (x : DataBaseM α) : Below x x := fun _ _ h => h

theorem Below.bind {α β : Type} {x y : DataBaseM α} {f g : α → DataBaseM β} (hx : Below x y)
    (hf : ∀ a, Below (f a) (g a)) :
    Below (x >>= f) (y >>= g) := by
  intro db r h
  change (x db >>= fun r => f r.1 r.2) = .ok r at h
  change (y db >>= fun r => g r.1 r.2) = .ok r
  cases hdb : x db with
  | error e =>
    rw [hdb] at h
    cases h
  | ok r' =>
    rw [hdb] at h
    rw [hx db r' hdb]
    exact hf r'.1 r'.2 r h

theorem onData_below {α : Type} (p : Nat → DataProg α) : Below (onData true p) (onData false p) := by
  intro db r h
  unfold onData at h ⊢
  split at h
  · cases h
  · exact h

theorem get_below (key : List Byte) : Below (get true key) (get false key) := by
  refine .bind (.refl _) ?_
  rintro (_ | recordID)
  · exact .refl _
  · exact onData_below _

theorem remove_below (key : List Byte) : Below (remove true key) (remove false key) := by
  refine .bind (.refl _) ?_
  rintro (_ | recordID)
  · exact .refl _
  · exact .bind (onData_below _) fun _ => .refl _

theorem set_below (key value : List Byte) : Below (set true key value) (set false key value) := by
  refine .bind (remove_below _) fun _ => .bind (onData_below _) fun recordID => .bind (.refl _) ?_
  rintro (_ | _)
  · simp only [Bool.false_eq_true, if_false]
    exact onData_below _
  · exact .refl _

theorem Call.perform_below (c : Call) : Below (c.perform true) (c.perform false) := by
  cases c with
  | get key => exact .bind (get_below key) fun _ => .refl _
  | set key value => exact .bind (set_below key value) fun _ => .refl _
  | remove key => exact .bind (remove_below key) fun _ => .refl _
  | exist key => exact .refl _
  | reopen evictsIndex evictsData => exact .refl _

/-! ## Pins between calls -/

/-- The pins that the pools keep are those in their frames. -/
def State.Counted (db : State) : Prop := db.index.Counted ∧ db.data.Counted

def KeepsCount {α : Type} (x : DataBaseM α) : Prop := ∀ db a db', db.Counted → x db = .ok (a, db') → db'.Counted

section
variable {α β : Type}

theorem KeepsCount.pure (a : α) : KeepsCount (pure a) := by
  intro db b db' h hx
  obtain ⟨-, rfl⟩ := Prod.mk.inj (Except.ok.inj hx)
  exact h

theorem KeepsCount.bind {x : DataBaseM α} {f : α → DataBaseM β} (hx : KeepsCount x) (hf : ∀ a, KeepsCount (f a)) :
    KeepsCount (x >>= f) := by
  intro db b db' h hxf
  change (x db >>= fun r => f r.1 r.2) = .ok (b, db') at hxf
  cases hdb : x db with
  | error e =>
    rw [hdb] at hxf
    cases hxf
  | ok r =>
    rw [hdb] at hxf
    exact hf r.1 r.2 b db' (hx db r.1 r.2 h hdb) hxf

theorem onIndex_keepsCount (p : Nat → IndexProg RecordKey RecordIDType α) : KeepsCount (onIndex p) := by
  intro db a db' h hx
  unfold onIndex at hx
  cases hrun : db.index.perform (p (bound db.index.cache.store)) with
  | error e =>
    rw [hrun] at hx
    cases hx
  | ok r =>
    rw [hrun] at hx
    obtain ⟨-, rfl⟩ := Prod.mk.inj (Except.ok.inj hx)
    exact ⟨Pool.counted_perform h.1 hrun, h.2⟩

theorem onData_keepsCount (watched : Bool) (p : Nat → DataProg α) : KeepsCount (onData watched p) := by
  intro db a db' h hx
  unfold onData at hx
  split at hx
  · cases hx
  cases hrun : db.data.perform (p db.blobBound) with
  | error e =>
    rw [hrun] at hx
    cases hx
  | ok r =>
    rw [hrun] at hx
    obtain ⟨-, rfl⟩ := Prod.mk.inj (Except.ok.inj hx)
    exact ⟨h.1, Pool.counted_perform h.2 hrun⟩

end

theorem reopen_keepsCount (evictsIndex : Nat → List PageIDType) (evictsData : Nat → List PageKey) :
    KeepsCount (reopen evictsIndex evictsData) := by
  intro db a db' h hx
  unfold reopen at hx
  cases hrun : (Pool.new db.index.poolSize evictsIndex db.index.cache.reopen).perform
      (BPlusTree.construct LEAF_PAGE_SIZE INTERNAL_PAGE_SIZE) with
  | error e =>
    rw [hrun] at hx
    cases hx
  | ok r =>
    rw [hrun] at hx
    obtain ⟨-, rfl⟩ := Prod.mk.inj (Except.ok.inj hx)
    exact ⟨Pool.counted_perform (Pool.counted_new _ _ _) hrun, fun _ => rfl⟩

section
variable (watched : Bool)

theorem get_keepsCount (key : List Byte) : KeepsCount (get watched key) := by
  refine .bind (onIndex_keepsCount _) ?_
  rintro (_ | recordID)
  · exact .pure _
  · exact onData_keepsCount _ _

theorem remove_keepsCount (key : List Byte) : KeepsCount (remove watched key) := by
  refine .bind (onIndex_keepsCount _) ?_
  rintro (_ | recordID)
  · exact .pure _
  · exact .bind (onData_keepsCount _ _) fun _ => .pure _

theorem set_keepsCount (key value : List Byte) : KeepsCount (set watched key value) := by
  refine .bind (remove_keepsCount watched _) fun _ => .bind (onData_keepsCount _ _) fun recordID =>
    .bind (onIndex_keepsCount _) ?_
  rintro (_ | _)
  · simp only [Bool.false_eq_true, if_false]
    exact onData_keepsCount _ _
  · exact .pure _

/-- No call loses count of the pins, also those that it leaves behind. -/
theorem Call.perform_keepsCount (c : Call) : KeepsCount (c.perform watched) := by
  cases c with
  | get key => exact .bind (get_keepsCount watched key) fun _ => .pure _
  | set key value => exact .bind (set_keepsCount watched key value) fun _ => .pure _
  | remove key => exact .bind (remove_keepsCount watched key) fun _ => .pure _
  | exist key => exact .bind (.bind (onIndex_keepsCount _) fun _ => .pure _) fun _ => .pure _
  | reopen evictsIndex evictsData => exact .bind (reopen_keepsCount evictsIndex evictsData) fun _ => .pure _

end

end MisakiDB.DataBase
