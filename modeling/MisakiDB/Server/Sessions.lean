import MisakiDB.Server.Serve
import MisakiDB.Lib.Runs
import Mathlib.Data.Fintype.Basic
/-!
# Sessions and the open databases

Each client is served by its own thread. The threads share the list of open databases;
`Server::open` and `Server::close` are one step each, under the mutex. Between them
every thread is on its own: what a message does to it is `serveMessage`.

A database is a node of the list, and a session's iterator is the id of its node. Ids
are not used again, so that an iterator to an erased node is none to a later one. The
use count is an `Int`: whether it stays above zero is to be shown.
-/

namespace MisakiDB.Server.Sessions

open Runs

structure DataBase where
  id : Nat
  databaseName : List Byte
  inuse : Int
  deriving DecidableEq

/-- Where a session stands. -/
inductive Phase
  | notOpen
  /-- Before `open(databaseName)`. -/
  | opening (databaseName : List Byte)
  | isOpen (database : Nat)
  /-- Before the `close(database)` of a repeated OPEN. -/
  | reopening (database : Nat) (databaseName : List Byte)
  /-- Before the `close(database)` of a disconnection. -/
  | leaving (database : Nat)
  | gone

structure State (τ : Type) where
  databases : List DataBase
  nextId : Nat
  phase : τ → Phase

inductive Event (τ : Type)
  | accept (t : τ)
  | receive (t : τ) (message : List Byte)
  | disconnect (t : τ)
  | open (t : τ)
  | close (t : τ)

section
variable {τ : Type}

namespace State

def goto [DecidableEq τ] (s : State τ) (t : τ) (x : Phase) : State τ := { s with phase := Function.update s.phase t x }

/-- The node of this name, which is made if there is none. -/
def findOrMake (s : State τ) (databaseName : List Byte) : Nat × State τ :=
  match s.databases.find? fun d => d.databaseName = databaseName with
  | some d => (d.id, s)
  | none => (s.nextId, { s with databases := s.databases ++ [⟨s.nextId, databaseName, 0⟩], nextId := s.nextId + 1 })

def addUse (s : State τ) (id : Nat) (n : Int) : State τ :=
  { s with databases := s.databases.map fun d => if d.id = id then { d with inuse := d.inuse + n } else d }

/-- `Server::open`. -/
def openDatabase (s : State τ) (databaseName : List Byte) : Nat × State τ :=
  let (id, s) := s.findOrMake databaseName
  (id, s.addUse id 1)

/-- `Server::close`. -/
def closeDatabase (s : State τ) (id : Nat) : State τ :=
  let s := s.addUse id (-1)
  { s with databases := s.databases.filter fun d => ¬ (d.id = id ∧ d.inuse = 0) }

end State

/-- None when the event cannot happen there. -/
def step [DecidableEq τ] (s : State τ) : Event τ → Option (State τ)
  | .accept t =>
    match s.phase t with
    | .gone => some (s.goto t .notOpen)
    | _ => none
  | .receive t message =>
    match s.phase t with
    | .notOpen =>
      match serveMessage true message with
      | some (.perform (.open databaseName)) => some (s.goto t (.opening databaseName))
      | some _ => some s
      | none => none
    | .isOpen id =>
      match serveMessage false message with
      | some (.perform (.open databaseName)) => some (s.goto t (.reopening id databaseName))
      | some _ => some s
      | none => none
    | _ => none
  | .disconnect t =>
    match s.phase t with
    | .notOpen => some (s.goto t .gone)
    | .isOpen id => some (s.goto t (.leaving id))
    | _ => none
  | .open t =>
    match s.phase t with
    | .opening databaseName => some ((s.openDatabase databaseName).2.goto t (.isOpen (s.openDatabase databaseName).1))
    | _ => none
  | .close t =>
    match s.phase t with
    | .reopening id databaseName => some ((s.closeDatabase id).goto t (.opening databaseName))
    | .leaving id => some ((s.closeDatabase id).goto t .gone)
    | _ => none

def Step [DecidableEq τ] (s : State τ) (e : Event τ) (s' : State τ) : Prop := step s e = some s'

def Init (s : State τ) : Prop := s.databases = [] ∧ ∀ t, s.phase t = .notOpen

/-- The database a session's iterator points to. -/
def Phase.holds : Phase → Option Nat
  | isOpen id | reopening id _ | leaving id => some id
  | _ => none

/-- The database an event reads or changes through an iterator it did not just get. -/
def Event.uses (s : State τ) : Event τ → Option Nat
  | receive t message =>
    match s.phase t, performed false message with
    | .isOpen id, some _ => some id
    | _, _ => none
  | close t => (s.phase t).holds
  | _ => none

variable {s s' : State τ} {t : τ} {id : Nat}

theorem mem_addUse {n : Int} {d : DataBase} : d ∈ (s.addUse id n).databases ↔
    ∃ e ∈ s.databases, d.id = e.id ∧ d.databaseName = e.databaseName ∧
    d.inuse = e.inuse + if e.id = id then n else 0 := by
  unfold State.addUse
  simp only [List.mem_map]
  refine exists_congr fun e => and_congr_right fun _ => ?_
  rcases d with ⟨i, name, c⟩
  rcases e with ⟨i', name', c'⟩
  split <;> simp [eq_comm]

theorem addUse_names (n : Int) : (s.addUse id n).databases.map DataBase.databaseName =
    s.databases.map DataBase.databaseName := by
  unfold State.addUse
  rw [List.map_map]
  refine List.map_congr_left fun d _ => ?_
  simp only [Function.comp_apply]
  split <;> rfl

theorem addUse_ids (n : Int) : (s.addUse id n).databases.map DataBase.id = s.databases.map DataBase.id := by
  unfold State.addUse
  rw [List.map_map]
  refine List.map_congr_left fun d _ => ?_
  simp only [Function.comp_apply]
  split <;> rfl

theorem mem_addUse_of_mem {e : DataBase} (he : e ∈ s.databases) (n : Int) :
    { e with inuse := e.inuse + if e.id = id then n else 0 } ∈ (s.addUse id n).databases :=
  mem_addUse.2 ⟨e, he, rfl, rfl, rfl⟩

variable [Fintype τ]

/-- How many sessions hold the database. -/
def holders (s : State τ) (id : Nat) : Nat := ∑ t, if (s.phase t).holds = some id then 1 else 0

/-! ## What every step keeps -/

structure Counted (s : State τ) : Prop where
  names : (s.databases.map DataBase.databaseName).Nodup
  ids : (s.databases.map DataBase.id).Nodup
  old : ∀ d ∈ s.databases, d.id < s.nextId
  counts : ∀ d ∈ s.databases, d.inuse = holders s d.id ∧ 0 < d.inuse
  held : ∀ t id, (s.phase t).holds = some id → ∃ d ∈ s.databases, d.id = id

theorem holders_goto [DecidableEq τ] (s : State τ) (t : τ) (x : Phase) (id : Nat) :
    holders (s.goto t x) id + (if (s.phase t).holds = some id then 1 else 0) =
      holders s id + if x.holds = some id then 1 else 0 :=
  sum_update (fun x : Phase => if x.holds = some id then 1 else 0) s.phase t x

/-- A session that changes its phase and holds what it held. -/
theorem Counted.goto [DecidableEq τ] (h : Counted s) {x : Phase} (hx : x.holds = (s.phase t).holds) :
    Counted (s.goto t x) := by
  have hsame : ∀ id, holders (s.goto t x) id = holders s id := fun id => by
    have := holders_goto s t x id
    rw [hx] at this
    omega
  refine ⟨h.names, h.ids, h.old, fun d hd => ?_, fun u id hu => ?_⟩
  · rw [hsame]
    exact h.counts d hd
  · by_cases hut : u = t
    · subst hut
      exact h.held u id (by simpa [State.goto, hx] using hu)
    · exact h.held u id (by simpa [State.goto, hut] using hu)

/-- Nobody holds a database that is not in the list. -/
theorem Counted.holders_eq_zero (h : Counted s) (hid : ∀ d ∈ s.databases, d.id ≠ id) : holders s id = 0 := by
  refine Finset.sum_eq_zero fun u _ => if_neg fun hu => ?_
  obtain ⟨d, hd, hdid⟩ := h.held u id hu
  exact hid d hd hdid

theorem one_le_holders [DecidableEq τ] (ht : (s.phase t).holds = some id) : 1 ≤ holders s id := by
  have := le_sum (fun x : Phase => if x.holds = some id then 1 else 0) s.phase t
  rw [if_pos ht] at this
  exact this

/-- What `findOrMake` leaves: a list with the node in it, and as much else. -/
structure Made (s : State τ) (databaseName : List Byte) (id : Nat) (s' : State τ) : Prop where
  phase : s'.phase = s.phase
  names : (s'.databases.map DataBase.databaseName).Nodup
  ids : (s'.databases.map DataBase.id).Nodup
  old : ∀ d ∈ s'.databases, d.id < s'.nextId
  counts : ∀ d ∈ s'.databases, d.inuse = holders s d.id ∧ (d.id ≠ id → 0 < d.inuse)
  here : ∃ d ∈ s'.databases, d.id = id
  kept : ∀ d ∈ s.databases, d ∈ s'.databases

theorem Counted.made (h : Counted s) (databaseName : List Byte) :
    Made s databaseName (s.findOrMake databaseName).1 (s.findOrMake databaseName).2 := by
  unfold State.findOrMake
  rcases hf : s.databases.find? fun d => d.databaseName = databaseName with _ | d <;> simp only [hf]
  · have hname : databaseName ∉ s.databases.map DataBase.databaseName := by
      intro hm
      obtain ⟨d, hd, rfl⟩ := List.mem_map.1 hm
      simpa using List.find?_eq_none.1 hf d hd
    have hid : ∀ d ∈ s.databases, d.id ≠ s.nextId := fun d hd => Nat.ne_of_lt (h.old d hd)
    refine ⟨rfl, ?_, ?_, fun d hd => ?_, fun d hd => ?_, ⟨_, List.mem_append_right _ (List.mem_singleton_self _), rfl⟩,
      fun d hd => List.mem_append_left _ hd⟩
    · rw [List.map_append, List.map_singleton, List.nodup_append]
      refine ⟨h.names, List.nodup_singleton _, fun a ha b hb hab => ?_⟩
      rw [List.mem_singleton.1 hb] at hab
      exact hname (by rw [hab] at ha; exact ha)
    · rw [List.map_append, List.map_singleton, List.nodup_append]
      refine ⟨h.ids, List.nodup_singleton _, fun a ha b hb hab => ?_⟩
      obtain ⟨d, hd, rfl⟩ := List.mem_map.1 ha
      exact hid d hd (hab.trans (List.mem_singleton.1 hb))
    · rcases List.mem_append.1 hd with hd | hd
      · exact Nat.lt_succ_of_lt (h.old d hd)
      · rw [List.mem_singleton.1 hd]
        exact Nat.lt_succ_self _
    · rcases List.mem_append.1 hd with hd | hd
      · exact ⟨(h.counts d hd).1, fun _ => (h.counts d hd).2⟩
      · rw [List.mem_singleton.1 hd]
        exact ⟨by simp [h.holders_eq_zero hid], fun hne => absurd rfl hne⟩
  · have hd := List.mem_of_find?_eq_some hf
    exact ⟨rfl, h.names, h.ids, h.old, fun e he => ⟨(h.counts e he).1, fun _ => (h.counts e he).2⟩, ⟨d, hd, rfl⟩,
      fun _ he => he⟩

theorem Counted.open [DecidableEq τ] (h : Counted s) (ht : (s.phase t).holds = none) (databaseName : List Byte) :
    Counted ((s.openDatabase databaseName).2.goto t (.isOpen (s.openDatabase databaseName).1)) := by
  have hm := h.made databaseName
  unfold State.openDatabase
  generalize s.findOrMake databaseName = r at hm ⊢
  obtain ⟨id, s1⟩ := r
  simp only at hm ⊢
  have hholders : ∀ i, holders ((s1.addUse id 1).goto t (.isOpen id)) i = holders s i + if i = id then 1 else 0 := by
    intro i
    have hsame : holders (s1.addUse id 1) i = holders s i := by
      unfold holders State.addUse
      rw [hm.phase]
    have := holders_goto (s1.addUse id 1) t (.isOpen id) i
    rw [hsame, show (s1.addUse id 1).phase = s.phase from hm.phase, ht] at this
    simpa [Phase.holds, eq_comm] using this
  refine ⟨?_, ?_, fun d hd => ?_, fun d hd => ?_, fun u i hu => ?_⟩
  · show ((s1.addUse id 1).databases.map DataBase.databaseName).Nodup
    rw [addUse_names]
    exact hm.names
  · show ((s1.addUse id 1).databases.map DataBase.id).Nodup
    rw [addUse_ids]
    exact hm.ids
  · obtain ⟨e, he, hid, -⟩ := mem_addUse.1 hd
    exact hid ▸ hm.old e he
  · obtain ⟨e, he, hid, -, hcount⟩ := mem_addUse.1 hd
    obtain ⟨hc, hpos⟩ := hm.counts e he
    rw [hholders, hid, hcount, hc]
    by_cases hei : e.id = id
    · simp [hei]
    · have := hpos hei
      simp [hei]
      omega
  · by_cases hut : u = t
    · subst hut
      have hi : id = i := by simpa [State.goto, Phase.holds] using hu
      obtain ⟨d, hd, hdid⟩ := hm.here
      exact ⟨_, mem_addUse_of_mem hd 1, hdid.trans hi⟩
    · have hu' : (s.phase u).holds = some i := by simpa [State.goto, State.addUse, hut, hm.phase] using hu
      obtain ⟨d, hd, hdid⟩ := h.held u i hu'
      exact ⟨_, mem_addUse_of_mem (hm.kept d hd) 1, hdid⟩

theorem Counted.close [DecidableEq τ] (h : Counted s) (ht : (s.phase t).holds = some id) {x : Phase}
    (hx : x.holds = none) :
    Counted ((s.closeDatabase id).goto t x) := by
  have hholders : ∀ i, holders ((s.closeDatabase id).goto t x) i + (if i = id then 1 else 0) = holders s i := by
    intro i
    have := holders_goto (s.closeDatabase id) t x i
    rw [show holders (s.closeDatabase id) i = holders s i from rfl, show (s.closeDatabase id).phase = s.phase from rfl,
      ht, hx]
      at this
    simpa [eq_comm] using this
  have hmem : ∀ d, d ∈ (s.closeDatabase id).databases ↔ d ∈ (s.addUse id (-1)).databases ∧
      ¬ (d.id = id ∧ d.inuse = 0) := by
    intro d
    unfold State.closeDatabase
    simp only [List.mem_filter, decide_eq_true_eq]
  -- the count of a node, before it is dropped, is that of its holders
  have hcounts : ∀ d ∈ (s.addUse id (-1)).databases, d.inuse = holders ((s.closeDatabase id).goto t x) d.id ∧
      (d.id ≠ id → 0 < d.inuse) := by
    intro d hd
    obtain ⟨e, he, hid, -, hcount⟩ := mem_addUse.1 hd
    obtain ⟨hc, hpos⟩ := h.counts e he
    have := hholders d.id
    rw [hid] at this ⊢
    by_cases hei : e.id = id
    · simp only [hei, if_true] at this hcount
      exact ⟨by rw [hei] at hc ⊢; omega, fun hne => absurd hei hne⟩
    · simp only [hei, if_false] at this hcount
      exact ⟨by omega, fun _ => by omega⟩
  refine ⟨?_, ?_, fun d hd => ?_, fun d hd => ?_, fun u i hu => ?_⟩
  · have hsub := (List.filter_sublist (p := fun d : DataBase => decide ¬ (d.id = id ∧ d.inuse = 0))
      (l := (s.addUse id (-1)).databases)).map DataBase.databaseName
    rw [addUse_names] at hsub
    exact h.names.sublist hsub
  · have hsub := (List.filter_sublist (p := fun d : DataBase => decide ¬ (d.id = id ∧ d.inuse = 0))
      (l := (s.addUse id (-1)).databases)).map DataBase.id
    rw [addUse_ids] at hsub
    exact h.ids.sublist hsub
  · obtain ⟨e, he, hid, -⟩ := mem_addUse.1 ((hmem d).1 hd).1
    exact hid ▸ h.old e he
  · obtain ⟨hd, hkeep⟩ := (hmem d).1 hd
    obtain ⟨hc, hpos⟩ := hcounts d hd
    refine ⟨hc, ?_⟩
    by_cases hdid : d.id = id
    · have : d.inuse ≠ 0 := fun h0 => hkeep ⟨hdid, h0⟩
      omega
    · exact hpos hdid
  · have hut : u ≠ t := by
      rintro rfl
      simp [State.goto, hx] at hu
    have hu' : (s.phase u).holds = some i := by simpa [State.goto, State.closeDatabase, State.addUse, hut] using hu
    obtain ⟨e, he, rfl⟩ := h.held u i hu'
    have hin : _ ∈ (s.addUse id (-1)).databases := mem_addUse_of_mem he (-1)
    refine ⟨_, (hmem _).2 ⟨hin, fun ⟨hid, hzero⟩ => ?_⟩, rfl⟩
    -- the one that stays is still counted
    have hone : 1 ≤ holders ((s.closeDatabase id).goto t x) e.id := one_le_holders hu
    have := (hcounts _ hin).1
    simp only at this hzero
    omega

theorem Counted.init (h : Init s) : Counted s := by
  obtain ⟨hd, hp⟩ := h
  refine ⟨by simp [hd], by simp [hd], by simp [hd], by simp [hd], fun t id ht => ?_⟩
  rw [hp t] at ht
  cases ht

theorem Counted.step [DecidableEq τ] (h : Counted s) {e : Event τ} (hs : Step s e s') : Counted s' := by
  unfold Step Sessions.step at hs
  -- a session counts as a holder from its `open` to its `close`
  cases e with
  | accept t =>
    simp only at hs
    split at hs
    · rename_i hp
      obtain rfl := Option.some.inj hs
      exact h.goto (by rw [hp]; rfl)
    · cases hs
  | receive t message =>
    simp only at hs
    split at hs
    · rename_i hp
      split at hs
      · obtain rfl := Option.some.inj hs
        exact h.goto (by rw [hp]; rfl)
      · obtain rfl := Option.some.inj hs
        exact h
      · cases hs
    · rename_i hp
      split at hs
      · obtain rfl := Option.some.inj hs
        exact h.goto (by rw [hp]; rfl)
      · obtain rfl := Option.some.inj hs
        exact h
      · cases hs
    · cases hs
  | disconnect t =>
    simp only at hs
    split at hs
    · rename_i hp
      obtain rfl := Option.some.inj hs
      exact h.goto (by rw [hp]; rfl)
    · rename_i hp
      obtain rfl := Option.some.inj hs
      exact h.goto (by rw [hp]; rfl)
    · cases hs
  | «open» t =>
    simp only at hs
    split at hs
    · rename_i hp
      obtain rfl := Option.some.inj hs
      exact h.open (by rw [hp]; rfl) _
    · cases hs
  | close t =>
    simp only at hs
    split at hs
    · rename_i hp
      obtain rfl := Option.some.inj hs
      exact h.close (by rw [hp]; rfl) rfl
    · rename_i hp
      obtain rfl := Option.some.inj hs
      exact h.close (by rw [hp]; rfl) rfl
    · cases hs

/-! ## Every run -/

/-- The use counts are the sessions', and the list is of the databases in use. -/
structure Accounted (s : State τ) : Prop where
  one_per_name : (s.databases.map DataBase.databaseName).Nodup
  one_per_id : (s.databases.map DataBase.id).Nodup
  counts : ∀ d ∈ s.databases, d.inuse = holders s d.id
  positive : ∀ d ∈ s.databases, 0 < d.inuse
  listed : ∀ id, (∃ d ∈ s.databases, d.id = id) ↔ 0 < holders s id

/-- A session uses only databases that are there, and no count falls below zero when it
closes one. -/
structure UsesLive (s : State τ) (e : Event τ) : Prop where
  there : ∀ id, e.uses s = some id → ∃ d ∈ s.databases, d.id = id
  counted_down : ∀ t, e = .close t → ∀ id, (s.phase t).holds = some id → ∀ d ∈ (s.addUse id (-1)).databases, 0 ≤ d.inuse

theorem Counted.accounted (h : Counted s) : Accounted s := by
  refine ⟨h.names, h.ids, fun d hd => (h.counts d hd).1, fun d hd => (h.counts d hd).2, fun id => ⟨?_, fun hpos => ?_⟩⟩
  · rintro ⟨d, hd, rfl⟩
    have := h.counts d hd
    omega
  · by_contra hnone
    have := h.holders_eq_zero fun d hd hid => hnone ⟨d, hd, hid⟩
    omega

theorem Counted.usesLive (h : Counted s) (e : Event τ) : UsesLive s e := by
  refine ⟨fun id hid => ?_, fun t _ id _ d hd => ?_⟩
  · cases e with
    | receive t message =>
      simp only [Event.uses] at hid
      split at hid
      · rename_i hp _
        exact h.held t id (by rw [hp]; exact hid)
      · cases hid
    | close t => exact h.held t id hid
    | _ => cases hid
  · obtain ⟨e, he, -, -, hcount⟩ := mem_addUse.1 hd
    have := (h.counts e he).2
    rw [hcount]
    split <;> omega

/-- In every state of every run the open databases are those in use, one for a name,
with the right counts, and whatever a session does next it does on a live one. -/
theorem databases_accounted [DecidableEq τ] (hs : Reach Init Step s) : Accounted s ∧ ∀ e, UsesLive s e := by
  have h : Counted s := hs.inv (fun _ h => Counted.init h) fun _ _ _ h hstep => h.step hstep
  exact ⟨h.accounted, h.usesLive⟩

end

def openMessage (name : Byte) : List Byte := OPEN ++ [SPACE, name]

/-- Two sessions open `a` and a third opens `b`. The second goes over to `b` and the first
leaves, so `a` is closed; then the first comes back and opens it. -/
def comeAndGo : List (Event (Fin 3)) :=
  [.receive 0 (openMessage 0x61), .receive 1 (openMessage 0x61), .open 1, .open 0,
    .receive 2 (openMessage 0x62), .open 2,
    .receive 1 (openMessage 0x62), .close 1, .disconnect 0, .close 0, .open 1, .accept 0,
      .receive 0 (openMessage 0x61), .open 0]

theorem databases_accounted_comeAndGo : ∃ s : State (Fin 3), s.databases = [⟨1, [0x62], 2⟩, ⟨2, [0x61], 1⟩] ∧
    Accounted s ∧ ∀ e, UsesLive s e := by
  have hrun : (follow step (fun _ _ => true) comeAndGo ⟨[], 0, fun _ => .notOpen⟩).any (fun s =>
      s.databases = [⟨1, [0x62], 2⟩, ⟨2, [0x61], 1⟩]) = true := by
    decide
  obtain ⟨s, hs, hdatabases⟩ := (Option.any_eq_true _ _).1 hrun
  have hreach : Reach Init Step s :=
    reach_of_follow (fun _ _ _ _ hnext => hnext) (.start ⟨rfl, fun _ => rfl⟩) hs
  exact ⟨s, of_decide_eq_true hdatabases, databases_accounted hreach⟩

end MisakiDB.Server.Sessions
