import MisakiDB.DataBase.CallRuns
import MisakiDB.Lib.Bytes
import MisakiDB.Server.Sessions
/-!
# The server, one message at a time

Any number of sessions send messages, and each is served to its end before the next. A
name leads to a directory and the files in it. The first session that opens the name has
the `DataBase` constructed over them, the last that leaves it has it destroyed, and what
was written is there for the next. So the sessions see named finite maps that no opening and
closing touches (`serves_named_maps`).
-/

namespace MisakiDB.Server

/-! ## Replies -/

def text (s : String) : List Byte := s.toList.map fun ch => BitVec.ofNat 8 ch.toNat

def Reply.bytes : Reply → List Byte
  | noDatabaseOpenedYet => text "NO DATABASE OPENED YET\n"
  | unrecognizedCommand => text "UNRECOGNIZED COMMAND\n"

def openReply : List Byte := text "OPEN SUCCESSFUL\n"

/-- What is sent back. The length comes first in a reply to `GET`. -/
def replyTo : DataBase.Answer → List Byte
  | .got value =>
    let message := value.getD (text "GET FAILED: KEY DOES NOT EXIST\n")
    leBytes 8 message.length ++ message
  | .wasSet => text "SET SUCCESSFUL\n"
  | .removed true => text "DELETE SUCCESSFUL\n"
  | .removed false => text "DELETE FAILED: KEY DOES NOT EXIST\n"
  | .existed true => text "EXIST\n"
  | .existed false => text "NOT EXIST\n"
  | .reopened => []

/-- What a message asks for. -/
inductive Request
  | open (databaseName : List Byte)
  | call (c : DataBase.Call)
  | refuse (r : Reply)

/-- None when an exception leaves `serve`. -/
def request (notOpen : Bool) (message : List Byte) : Option Request :=
  match serveMessage notOpen message with
  | some (.refuse r) => some (.refuse r)
  | some (.perform (.open databaseName)) => some (.open databaseName)
  | some (.perform (.get key)) => some (.call (.get key))
  | some (.perform (.set key value)) => some (.call (.set key value))
  | some (.perform (.delete key)) => some (.call (.remove key))
  | some (.perform (.exist key)) => some (.call (.exist key))
  | none => none

namespace Service

open Runs

/-! ## The server and its files -/

structure State (τ δ : Type) where
  sessions : Sessions.State τ
  /-- The database over a directory's files, as it is or was when it was last destroyed. -/
  stored : δ → Option DataBase.State

/-- What the pools of a new `DataBase` will evict. -/
structure Evicts where
  index : Nat → List PageIDType
  data : Nat → List PageKey

inductive Event (τ : Type)
  | accept (t : τ)
  | message (t : τ) (message : List Byte) (evicts : Evicts)
  | disconnect (t : τ)

section
variable {τ δ : Type}

namespace State

variable [DecidableEq τ] [DecidableEq δ]

def goto (s : State τ δ) (t : τ) (x : Sessions.Phase) : State τ δ := { s with sessions := s.sessions.goto t x }

def store (s : State τ δ) (dir : δ) (db : DataBase.State) : State τ δ :=
  { s with stored := Function.update s.stored dir (some db) }

variable (directory : List Byte → δ) (indexSize dataSize : Nat)

/-- `DataBase::DataBase`. What a pool had when it was destroyed is in the files. -/
def construct (s : State τ δ) (databaseName : List Byte) (evicts : Evicts) : Option (State τ δ) :=
  match s.stored (directory databaseName) with
  | none => some (s.store (directory databaseName) (DataBase.created indexSize dataSize evicts.index evicts.data))
  | some db =>
    match DataBase.reopen evicts.index evicts.data db with
    | .ok (_, db) => some (s.store (directory databaseName) db)
    | .error _ => none

/-- The search of `Server::open`, which has a database constructed if none has the name. -/
def findOrConstruct (s : State τ δ) (databaseName : List Byte) (evicts : Evicts) : Option (State τ δ) :=
  if s.sessions.databases.any fun d => d.databaseName = databaseName then some s
  else s.construct directory indexSize dataSize databaseName evicts

/-- `Server::open`. -/
def openDatabase (s : State τ δ) (t : τ) (databaseName : List Byte) (evicts : Evicts) : Option (State τ δ) :=
  (s.findOrConstruct directory indexSize dataSize databaseName evicts).map fun s =>
    let r := s.sessions.openDatabase databaseName
    { s with sessions := r.2.goto t (.isOpen r.1) }

/-- `Server::close`, after which the session is in phase `x`. -/
def closeDatabase (s : State τ δ) (t : τ) (id : Nat) (x : Sessions.Phase) : State τ δ :=
  { s with sessions := (s.sessions.closeDatabase id).goto t x }

/-- A call on the session's database. -/
def perform (s : State τ δ) (id : Nat) (c : DataBase.Call) : Option (List Byte × State τ δ) := do
  let d ← s.sessions.databases.find? fun d => d.id = id
  let db ← s.stored (directory d.databaseName)
  match c.perform false db with
  | .ok (a, db) => some (replyTo a, s.store (directory d.databaseName) db)
  | .error _ => none

/-- One turn of the loop in `Server::serve`. -/
def message (s : State τ δ) (t : τ) (message : List Byte) (evicts : Evicts) : Option (List Byte × State τ δ) :=
  match s.sessions.phase t with
  | .notOpen =>
    match request true message with
    | some (.open databaseName) => do
      pure (openReply, ← s.openDatabase directory indexSize dataSize t databaseName evicts)
    | some (.refuse r) => some (r.bytes, s)
    | _ => none
  | .isOpen id =>
    match request false message with
    | some (.open databaseName) => do
      let s := s.closeDatabase t id (.opening databaseName)
      pure (openReply, ← s.openDatabase directory indexSize dataSize t databaseName evicts)
    | some (.call c) => s.perform directory id c
    | some (.refuse r) => some (r.bytes, s)
    | none => none
  | _ => none

/-- A new connection is given to a thread. -/
def accept (s : State τ δ) (t : τ) : Option (List Byte × State τ δ) :=
  match s.sessions.phase t with
  | .gone => some ([], s.goto t .notOpen)
  | _ => none

/-- `recv` fails or has nothing more. -/
def disconnect (s : State τ δ) (t : τ) : Option (List Byte × State τ δ) :=
  match s.sessions.phase t with
  | .notOpen => some ([], s.goto t .gone)
  | .isOpen id => some ([], s.closeDatabase t id .gone)
  | _ => none

/-- What is sent, and the server afterwards. None when the event cannot happen, or the
thread does not come to its end. -/
def step (s : State τ δ) : Event τ → Option (List Byte × State τ δ)
  | .accept t => s.accept t
  | .message t message evicts => s.message directory indexSize dataSize t message evicts
  | .disconnect t => s.disconnect t

end State

variable (directory : List Byte → δ) (indexSize dataSize : Nat)

def Step [DecidableEq τ] [DecidableEq δ] (s : State τ δ) (e : Event τ × List Byte) (s' : State τ δ) : Prop :=
  s.step directory indexSize dataSize e.1 = some (e.2, s')

/-- No database is open, and there are no files. -/
def Init (s : State τ δ) : Prop := Sessions.Init s.sessions ∧ ∀ dir, s.stored dir = none

/-- Names that are opened are in `N`. A call on a database is sound: its key and value are
allowed, its pools have a frame for every page it needs and lose no map page. -/
def Sound (N : Set (List Byte)) (s : State τ δ) (e : Event τ × List Byte) : Prop :=
  ∀ t message evicts, e.1 = .message t message evicts →
    (∀ notOpen databaseName, request notOpen message = some (.open databaseName) → databaseName ∈ N) ∧
    ∀ c, request false message = some (.call c) → ∀ id, s.sessions.phase t = .isOpen id →
      ∀ d ∈ s.sessions.databases, d.id = id → ∀ db, s.stored (directory d.databaseName) = some db →
        DataBase.Twin.Sound ⟨db, fun _ => none⟩ c

/-! ## Named maps -/

inductive Session
  | notOpen
  | isOpen (databaseName : List Byte)
  | gone

structure Maps (τ : Type) where
  map : List Byte → RecordKey → Option (List Byte)
  session : τ → Session

namespace Maps

variable [DecidableEq τ]

def goto (y : Maps τ) (t : τ) (x : Session) : Maps τ := { y with session := Function.update y.session t x }

def withMap (y : Maps τ) (databaseName : List Byte) (m : RecordKey → Option (List Byte)) : Maps τ :=
  { y with map := Function.update y.map databaseName m }

/-- Before anybody has opened anything. -/
def new : Maps τ := ⟨fun _ _ => none, fun _ => .notOpen⟩

def accept (y : Maps τ) (t : τ) : Option (List Byte × Maps τ) :=
  match y.session t with
  | .gone => some ([], y.goto t .notOpen)
  | _ => none

def message (y : Maps τ) (t : τ) (message : List Byte) : Option (List Byte × Maps τ) :=
  match y.session t with
  | .notOpen =>
    match request true message with
    | some (.open databaseName) => some (openReply, y.goto t (.isOpen databaseName))
    | some (.refuse r) => some (r.bytes, y)
    | _ => none
  | .isOpen name =>
    match request false message with
    | some (.open databaseName) => some (openReply, y.goto t (.isOpen databaseName))
    | some (.call c) => some (replyTo (c.onMap (y.map name)).1, y.withMap name (c.onMap (y.map name)).2)
    | some (.refuse r) => some (r.bytes, y)
    | none => none
  | .gone => none

def disconnect (y : Maps τ) (t : τ) : Option (List Byte × Maps τ) :=
  match y.session t with
  | .gone => none
  | _ => some ([], y.goto t .gone)

def step (y : Maps τ) : Event τ → Option (List Byte × Maps τ)
  | .accept t => y.accept t
  | .message t message _ => y.message t message
  | .disconnect t => y.disconnect t

def Step (y : Maps τ) (e : Event τ × List Byte) (y' : Maps τ) : Prop := y.step e.1 = some (e.2, y')

end Maps

/-! ## Nodes of the list -/

section Nodes
variable {s s' : Sessions.State τ} {t : τ} {id : Nat} {databaseName : List Byte}

/-- Every node of the list was there before, with its name. -/
def Older (l l' : List Sessions.DataBase) : Prop := ∀ d ∈ l', ∃ e ∈ l, d.id = e.id ∧ d.databaseName = e.databaseName

theorem older_addUse (s : Sessions.State τ) (id : Nat) (n : Int) :
    Older s.databases (s.addUse id n).databases ∧ Older (s.addUse id n).databases s.databases := by
  constructor
  · intro d hd
    obtain ⟨e, he, hid, hname, -⟩ := Sessions.mem_addUse.1 hd
    exact ⟨e, he, hid, hname⟩
  · intro e he
    exact ⟨_, Sessions.mem_addUse_of_mem he n, rfl, rfl⟩

theorem older_close (s : Sessions.State τ) (id : Nat) : Older s.databases (s.closeDatabase id).databases := by
  intro d hd
  exact (older_addUse s id (-1)).1 d (List.mem_filter.1 hd).1

/-- The node of the name is there, and nothing else is new. -/
theorem nodes_open (s : Sessions.State τ) (databaseName : List Byte) :
    (∃ d ∈ (s.openDatabase databaseName).2.databases, d.id = (s.openDatabase databaseName).1 ∧
    d.databaseName = databaseName) ∧
      Older (s.openDatabase databaseName).2.databases s.databases ∧
      ∀ d ∈ (s.openDatabase databaseName).2.databases,
        d.databaseName = databaseName ∨ ∃ e ∈ s.databases, d.databaseName = e.databaseName := by
  unfold Sessions.State.openDatabase Sessions.State.findOrMake
  rcases hf : s.databases.find? fun d => d.databaseName = databaseName with _ | d <;> simp only [hf]
  · obtain ⟨hnew, hold⟩ := older_addUse
      { s with databases := s.databases ++ [⟨s.nextId, databaseName, 0⟩], nextId := s.nextId + 1 } s.nextId 1
    refine ⟨?_, ?_, ?_⟩
    · obtain ⟨d, hd, hid, hname⟩ := hold ⟨s.nextId, databaseName, 0⟩ (by simp)
      exact ⟨d, hd, hid.symm, hname.symm⟩
    · intro e he
      exact hold e (List.mem_append_left _ he)
    · intro d hd
      obtain ⟨e, he, -, hname⟩ := hnew d hd
      rcases List.mem_append.1 he with he | he
      · exact .inr ⟨e, he, hname⟩
      · rw [List.mem_singleton.1 he] at hname
        exact .inl hname
  · have hd := List.mem_of_find?_eq_some hf
    obtain ⟨hnew, hold⟩ := older_addUse s d.id 1
    refine ⟨?_, hold, fun d' hd' => ?_⟩
    · obtain ⟨d', hd', hid, hname⟩ := hold d hd
      refine ⟨d', hd', hid.symm, hname.symm.trans ?_⟩
      simpa using List.find?_some hf
    · obtain ⟨e, he, -, hname⟩ := hnew d' hd'
      exact .inr ⟨e, he, hname⟩

theorem phase_open (s : Sessions.State τ) (databaseName : List Byte) :
    (s.openDatabase databaseName).2.phase = s.phase := by
  unfold Sessions.State.openDatabase Sessions.State.findOrMake
  cases s.databases.find? fun d => d.databaseName = databaseName <;> rfl

end Nodes

/-! ## The server and the maps side by side -/

inductive Stands (l : List Sessions.DataBase) : Sessions.Phase → Session → Prop
  | notOpen : Stands l .notOpen .notOpen
  | isOpen {d : Sessions.DataBase} : d ∈ l → Stands l (.isOpen d.id) (.isOpen d.databaseName)
  | gone : Stands l .gone .gone

/-- What is in a directory's files, if there are any. -/
def Keeps (o : Option DataBase.State) (m : RecordKey → Option (List Byte)) : Prop :=
  match o with
  | none => m = fun _ => none
  | some db => DataBase.Holds db m

variable {directory indexSize dataSize} [Fintype τ] {N : Set (List Byte)} {s s' : State τ δ} {y : Maps τ} {t : τ}
  {out : Option τ} {databaseName : List Byte}

/-- The session in `out` is between two databases. -/
structure Sim (directory : List Byte → δ) (N : Set (List Byte)) (s : State τ δ) (y : Maps τ) (out : Option τ := none) :
    Prop where
  counted : Sessions.Counted s.sessions
  stands : ∀ t, out ≠ some t → Stands s.sessions.databases (s.sessions.phase t) (y.session t)
  opened : ∀ d ∈ s.sessions.databases, d.databaseName ∈ N ∧ (s.stored (directory d.databaseName)).isSome
  keeps : ∀ databaseName ∈ N, Keeps (s.stored (directory databaseName)) (y.map databaseName)

/-- A session stays where it stands while other nodes go. -/
theorem Stands.older {l l' : List Sessions.DataBase} {x : Sessions.Phase} {z : Session} (h : Stands l x z)
    (hkept : ∀ id, x.holds = some id → ∃ d ∈ l', d.id = id) (hold : Older l l')
    (hids : (l.map Sessions.DataBase.id).Nodup) :
    Stands l' x z := by
  cases h with
  | notOpen => exact .notOpen
  | gone => exact .gone
  | @isOpen d hd =>
    obtain ⟨d', hd', hid⟩ := hkept d.id rfl
    obtain ⟨e, he, heid, hname⟩ := hold d' hd'
    have hde : e = d := List.inj_on_of_nodup_map hids he hd (heid.symm.trans hid)
    rw [hde] at hname
    rw [← hid, ← hname]
    exact .isOpen hd'

/-- Or come. -/
theorem Stands.newer {l l' : List Sessions.DataBase} {x : Sessions.Phase} {z : Session} (h : Stands l x z)
    (hnew : Older l' l) :
    Stands l' x z := by
  cases h with
  | notOpen => exact .notOpen
  | gone => exact .gone
  | @isOpen d hd =>
    obtain ⟨d', hd', hid, hname⟩ := hnew d hd
    rw [hid, hname]
    exact .isOpen hd'

/-- The database of the name holds the map that the name has. -/
theorem Sim.store [DecidableEq δ] (h : Sim directory N s y out) (hdir : Set.InjOn directory N)
    (hname : databaseName ∈ N) {db : DataBase.State}
    {m : RecordKey → Option (List Byte)} (hdb : DataBase.Holds db m) :
    Sim directory N (s.store (directory databaseName) db) (y.withMap databaseName m) out := by
  refine ⟨h.counted, h.stands, fun d hd => ?_, fun other hother => ?_⟩
  · obtain ⟨hin, hsome⟩ := h.opened d hd
    refine ⟨hin, ?_⟩
    by_cases heq : directory d.databaseName = directory databaseName
    · simp [State.store, heq]
    · simpa [State.store, heq] using hsome
  · by_cases heq : other = databaseName
    · subst heq
      simpa [State.store, Maps.withMap, Keeps] using hdb
    · have hne : directory other ≠ directory databaseName := fun hd => heq (hdir hother hname hd)
      simpa [State.store, Maps.withMap, hne, heq] using h.keeps other hother

omit [Fintype τ] in
theorem Maps.withMap_self (y : Maps τ) (databaseName : List Byte) :
    y.withMap databaseName (y.map databaseName) = y := by
  simp [Maps.withMap]

theorem Sim.construct [DecidableEq δ] (h : Sim directory N s y out) (hdir : Set.InjOn directory N)
    (hname : databaseName ∈ N) {evicts : Evicts}
    (hs : s.construct directory indexSize dataSize databaseName evicts = some s') :
    Sim directory N s' y out ∧ s'.sessions = s.sessions ∧ (s'.stored (directory databaseName)).isSome := by
  have hkeeps := h.keeps databaseName hname
  unfold State.construct at hs
  cases hdb : s.stored (directory databaseName) with
  | none =>
    rw [hdb] at hs hkeeps
    obtain rfl := Option.some.inj hs
    have hsim := h.store hdir hname (DataBase.created_holds indexSize dataSize evicts.index evicts.data)
    rw [← show y.map databaseName = fun _ => none from hkeeps, Maps.withMap_self] at hsim
    exact ⟨hsim, rfl, by simp [State.store]⟩
  | some db =>
    rw [hdb] at hs hkeeps
    rcases DataBase.Holds.reopen (h := hkeeps) evicts.index evicts.data with ⟨e, he, -⟩ | ⟨a, db', hrun, hholds⟩
    · simp [he] at hs
    · dsimp only at hs
      rw [hrun] at hs
      obtain rfl := Option.some.inj hs
      have hsim := h.store hdir hname hholds
      rw [Maps.withMap_self] at hsim
      exact ⟨hsim, rfl, by simp [State.store]⟩

variable [DecidableEq τ]

/-- A session with no database gets one. -/
theorem Sim.open [DecidableEq δ] (h : Sim directory N s y (some t)) (ht : (s.sessions.phase t).holds = none)
    (hdir : Set.InjOn directory N) (hname : databaseName ∈ N) {evicts : Evicts}
    (hs : s.openDatabase directory indexSize dataSize t databaseName evicts = some s') :
    Sim directory N s' (y.goto t (.isOpen databaseName)) := by
  obtain ⟨s1, hs1, rfl⟩ := Option.map_eq_some_iff.1 hs
  -- the database is found, or constructed from its files
  have hmade : Sim directory N s1 y (some t) ∧ s1.sessions = s.sessions ∧
      (s1.stored (directory databaseName)).isSome := by
    unfold State.findOrConstruct at hs1
    split at hs1
    · rename_i hany
      obtain rfl := Option.some.inj hs1
      obtain ⟨d, hd, hdn⟩ := List.any_eq_true.1 hany
      exact ⟨h, rfl, by simpa [of_decide_eq_true hdn] using (h.opened d hd).2⟩
    · exact h.construct hdir hname hs1
  obtain ⟨hsim, hsessions, hsome⟩ := hmade
  obtain ⟨⟨d, hd, hid, hdn⟩, hkept, hnames⟩ := nodes_open s1.sessions databaseName
  have hcounted := hsim.counted.open (by rw [hsessions]; exact ht) databaseName
  refine ⟨hcounted, fun u _ => ?_, fun d' hd' => ?_, hsim.keeps⟩
  · by_cases hut : u = t
    · subst hut
      simp only [Sessions.State.goto, Maps.goto, Function.update_self]
      have hstands := Stands.isOpen hd
      rwa [hid, hdn] at hstands
    · simp only [Sessions.State.goto, Maps.goto, Function.update_of_ne hut]
      rw [phase_open]
      exact (hsim.stands u (by simpa using Ne.symm hut)).newer hkept
  · rcases hnames d' hd' with hd'n | ⟨e, he, hd'n⟩
    · rw [hd'n]
      exact ⟨hname, hsome⟩
    · rw [hd'n]
      exact hsim.opened e he

/-- A session leaves its database. -/
theorem Sim.close (h : Sim directory N s y) {id : Nat} (ht : s.sessions.phase t = .isOpen id) {x : Sessions.Phase}
    (hx : x.holds = none) : Sim directory N (s.closeDatabase t id x) y (some t) := by
  have hholds : (s.sessions.phase t).holds = some id := by
    rw [ht]
    rfl
  have hcounted := h.counted.close hholds hx
  have hold := older_close s.sessions id
  refine ⟨hcounted, fun u hu => ?_, fun d hd => ?_, h.keeps⟩
  · have hut : u ≠ t := fun heq => hu (by rw [heq])
    have hphase : ((s.closeDatabase t id x).sessions.phase u) = s.sessions.phase u := Function.update_of_ne hut _ _
    have hstands := h.stands u (by simp)
    rw [hphase]
    refine hstands.older (fun i hi => ?_) hold h.counted.ids
    exact hcounted.held u i (by rw [← hi]; exact congrArg _ hphase)
  · obtain ⟨e, he, -, hname⟩ := hold d hd
    rw [hname]
    exact h.opened e he

theorem Sim.goto (h : Sim directory N s y) {x : Sessions.Phase} {z : Session}
    (hx : x.holds = (s.sessions.phase t).holds)
    (hstands : Stands s.sessions.databases x z) : Sim directory N (s.goto t x) (y.goto t z) := by
  refine ⟨h.counted.goto hx, fun u _ => ?_, h.opened, h.keeps⟩
  by_cases hut : u = t
  · subst hut
    simpa [State.goto, Sessions.State.goto, Maps.goto] using hstands
  · simpa [State.goto, Sessions.State.goto, Maps.goto, hut] using h.stands u (by simp)

/-- A session with no database has gone, or let it go. -/
theorem Sim.left (h : Sim directory N s y (some t)) {z : Session}
    (hstands : Stands s.sessions.databases (s.sessions.phase t) z) :
    Sim directory N s (y.goto t z) := by
  refine ⟨h.counted, fun u _ => ?_, h.opened, h.keeps⟩
  by_cases hut : u = t
  · subst hut
    simpa [Maps.goto] using hstands
  · simpa [Maps.goto, hut] using h.stands u (by simpa using Ne.symm hut)

omit [DecidableEq τ] in
/-- A call does to the database of the session what it does to its map. -/
theorem Sim.perform [DecidableEq δ] (h : Sim directory N s y) (hdir : Set.InjOn directory N) {id : Nat}
    (ht : s.sessions.phase t = .isOpen id)
    {c : DataBase.Call} {reply : List Byte} (hs : s.perform directory id c = some (reply, s'))
    (hsound : ∀ d ∈ s.sessions.databases, d.id = id → ∀ db, s.stored (directory d.databaseName) = some db →
      DataBase.Twin.Sound ⟨db, fun _ => none⟩ c) :
    ∃ name, y.session t = .isOpen name ∧ reply = replyTo (c.onMap (y.map name)).1 ∧
      Sim directory N s' (y.withMap name (c.onMap (y.map name)).2) := by
  have hstands := h.stands t (by simp)
  rw [ht] at hstands
  generalize hz : y.session t = z at hstands
  cases hstands with
  | @isOpen d hd =>
    refine ⟨d.databaseName, rfl, ?_⟩
    obtain ⟨hin, hsome⟩ := h.opened d hd
    obtain ⟨db, hdb⟩ := Option.isSome_iff_exists.1 hsome
    have hholds := h.keeps d.databaseName hin
    rw [hdb] at hholds
    obtain ⟨db', hrun, hholds'⟩ :=
      DataBase.perform_sound (s := ⟨db, y.map d.databaseName⟩) hholds (hsound d hd rfl db hdb)
    have hfind : s.sessions.databases.find? (fun e => e.id = d.id) = some d := by
      have hfound : (s.sessions.databases.find? fun e => e.id = d.id).isSome := List.find?_isSome.2 ⟨d, hd, by simp⟩
      obtain ⟨e, he⟩ := Option.isSome_iff_exists.1 hfound
      have hid : e.id = d.id := by simpa using List.find?_some he
      rw [he, List.inj_on_of_nodup_map h.counted.ids (List.mem_of_find?_eq_some he) hd hid]
    unfold State.perform at hs
    simp only [hfind, hdb, hrun, Option.bind_eq_bind, Option.bind_some, Option.some.injEq, Prod.mk.injEq] at hs
    obtain ⟨rfl, rfl⟩ := hs
    exact ⟨rfl, h.store hdir hin hholds'⟩

/-! ## Runs -/

omit [DecidableEq τ] in
theorem Sim.init (h : Init s) : Sim directory N s Maps.new := by
  obtain ⟨hsessions, hstored⟩ := h
  refine ⟨.init hsessions, fun t _ => ?_, fun d hd => ?_, fun name _ => ?_⟩
  · rw [hsessions.2 t]
    exact .notOpen
  · rw [hsessions.1] at hd
    cases hd
  · rw [hstored]
    rfl

theorem Sim.accept (h : Sim directory N s y) {reply : List Byte} (hs : s.accept t = some (reply, s')) :
    ∃ y', y.accept t = some (reply, y') ∧ Sim directory N s' y' := by
  have hstands := h.stands t (by simp)
  unfold State.accept at hs
  unfold Maps.accept
  cases hx : s.sessions.phase t <;> rw [hx] at hs hstands <;> cases hs
  generalize hz : y.session t = z at hstands
  cases hstands with
  | gone => exact ⟨_, rfl, h.goto (by rw [hx]; rfl) .notOpen⟩

theorem Sim.disconnect (h : Sim directory N s y) {reply : List Byte} (hs : s.disconnect t = some (reply, s')) :
    ∃ y', y.disconnect t = some (reply, y') ∧ Sim directory N s' y' := by
  have hstands := h.stands t (by simp)
  unfold State.disconnect at hs
  unfold Maps.disconnect
  cases hx : s.sessions.phase t <;> rw [hx] at hs hstands <;> cases hs
  · generalize hz : y.session t = z at hstands
    cases hstands with
    | notOpen => exact ⟨_, rfl, h.goto (by rw [hx]; rfl) .gone⟩
  · have hleft := (h.close hx (x := .gone) rfl).left (z := .gone)
    generalize hz : y.session t = z at hstands
    cases hstands with
    | isOpen hd =>
      refine ⟨_, rfl, hleft ?_⟩
      simpa [State.closeDatabase, Sessions.State.goto] using Stands.gone

variable [DecidableEq δ]

theorem Sim.message (h : Sim directory N s y) (hdir : Set.InjOn directory N)
    {message reply : List Byte} {evicts : Evicts}
    (hs : s.message directory indexSize dataSize t message evicts = some (reply, s'))
    (hsound : Sound directory N s (.message t message evicts, reply)) :
    ∃ y', y.message t message = some (reply, y') ∧ Sim directory N s' y' := by
  obtain ⟨hopen, hcall⟩ := hsound t message evicts rfl
  have hstands := h.stands t (by simp)
  unfold State.message at hs
  unfold Maps.message
  -- only a session that waits for a message takes one
  cases hx : s.sessions.phase t <;> rw [hx] at hs hstands
  · generalize hz : y.session t = z at hstands
    cases hstands with
    | notOpen =>
      dsimp only at hs ⊢
      cases hr : request true message with
      | none =>
        rw [hr] at hs
        cases hs
      | some r =>
        rw [hr] at hs
        cases r with
        | «open» databaseName =>
          obtain ⟨s1, hs1, heq⟩ := Option.bind_eq_some_iff.1 hs
          obtain ⟨rfl, rfl⟩ := Prod.mk.inj (Option.some.inj heq)
          have hout : Sim directory N s y (some t) := ⟨h.counted, fun u _ => h.stands u (by simp), h.opened, h.keeps⟩
          exact ⟨_, rfl, hout.open (by rw [hx]; rfl) hdir (hopen _ _ hr) hs1⟩
        | call c => cases hs
        | refuse r =>
          obtain ⟨rfl, rfl⟩ := Prod.mk.inj (Option.some.inj hs)
          exact ⟨y, rfl, h⟩
  · cases hs
  · generalize hz : y.session t = z at hstands
    cases hstands with
    | @isOpen d hd =>
      dsimp only at hs ⊢
      cases hr : request false message with
      | none =>
        rw [hr] at hs
        cases hs
      | some r =>
        rw [hr] at hs
        cases r with
        | «open» databaseName =>
          obtain ⟨s1, hs1, heq⟩ := Option.bind_eq_some_iff.1 hs
          obtain ⟨rfl, rfl⟩ := Prod.mk.inj (Option.some.inj heq)
          -- a second OPEN closes first, so it opens as the first one does
          have hclosed : ((s.closeDatabase t d.id (.opening databaseName)).sessions.phase t).holds = none := by
            simp [State.closeDatabase, Sessions.State.goto, Sessions.Phase.holds]
          exact ⟨_, rfl, (h.close hx rfl).open hclosed hdir (hopen _ _ hr) hs1⟩
        | call c =>
          obtain ⟨name, hname, rfl, hsim⟩ := h.perform hdir hx hs (hcall c hr d.id hx)
          rw [hz] at hname
          obtain rfl : d.databaseName = name := by simpa using hname
          exact ⟨_, rfl, hsim⟩
        | refuse r =>
          obtain ⟨rfl, rfl⟩ := Prod.mk.inj (Option.some.inj hs)
          exact ⟨y, rfl, h⟩
  · cases hs
  · cases hs
  · cases hs

theorem Sim.step (h : Sim directory N s y) (hdir : Set.InjOn directory N) {e : Event τ × List Byte}
    (hs : Restrict (Step directory indexSize dataSize) (Sound directory N) s e s') :
    ∃ y', Maps.Step y e y' ∧ Sim directory N s' y' := by
  obtain ⟨event, reply⟩ := e
  obtain ⟨hsound, hstep⟩ := hs
  cases event with
  | accept t => exact h.accept hstep
  | message t message evicts => exact h.message hdir hstep hsound
  | disconnect t => exact h.disconnect hstep

/-- As long as the names opened lead to different directories and each call is sound, every
session sees, in whatever order they come, open, leave and open again, the replies that
named finite maps give. -/
theorem serves_named_maps (hdir : Set.InjOn directory N) (hi : Init s) {l : List ((Event τ × List Byte) × State τ δ)}
    (h : Path (Restrict (Step directory indexSize dataSize) (Sound directory N)) s l s') :
    ∃ l' y, Path Maps.Step Maps.new l' y ∧ l'.map Prod.fst = l.map Prod.fst := by
  have hstep : ∀ (s : State τ δ) (e : Event τ × List Byte) (s' : State τ δ) (y : Maps τ), Sim directory N s y →
      Restrict (Step directory indexSize dataSize) (Sound directory N) s e s' →
      ∃ l y', Path Maps.Step y l y' ∧ trace some l = trace some [(e, s')] ∧ Sim directory N s' y' := by
    intro s e s' y hsim hs
    obtain ⟨y', hy, hsim'⟩ := hsim.step hdir hs
    exact ⟨_, y', .one hy, rfl, hsim'⟩
  obtain ⟨l', y, hl', htrace, -⟩ := Path.simulate hstep h (Sim.init hi)
  exact ⟨l', y, hl', by simpa [trace] using htrace⟩

end

/-! ## A conversation -/

/-- The call is allowed, and on its pools it ends. -/
def checked {τ : Type} (s : State τ (List Byte)) : Event τ → Bool
  | .message t message _ =>
    match request false message, s.sessions.phase t with
    | some (.call c), .isOpen id => s.sessions.databases.all fun d => d.id != id ||
        ((s.stored d.databaseName).all fun db => c.Allowed db && (c.perform true db).isOk)
    | _, _ => true
  | _ => true

theorem sound_of_checked {τ : Type} {s : State τ (List Byte)} {e : Event τ × List Byte} (h : checked s e.1 = true) :
    Sound id Set.univ s e := by
  obtain ⟨event, reply⟩ := e
  rintro t message evicts rfl
  refine ⟨fun _ _ _ => trivial, fun c hc i hi d hd hid db hdb => ?_⟩
  simp only [checked, hc, hi, List.all_eq_true, Bool.or_eq_true, bne_iff_ne, Option.all_eq_true, Bool.and_eq_true,
    decide_eq_true_eq] at h
  obtain ⟨hallowed, hok⟩ := (h d hd).resolve_left (not_not_intro hid) db hdb
  cases hrun : c.perform true db with
  | ok r => exact DataBase.sound_of_ok hallowed hrun
  | error e =>
    rw [hrun] at hok
    cases hok

/-- The step that has this reply. -/
def nextWith {τ : Type} [DecidableEq τ] (s : State τ (List Byte)) (e : Event τ × List Byte) :
    Option (State τ (List Byte)) :=
  (s.step id 8 8 e.1).bind fun r => if r.1 = e.2 then some r.2 else none

theorem step_of_nextWith {τ : Type} [DecidableEq τ] {s s' : State τ (List Byte)} {e : Event τ × List Byte}
    (h : nextWith s e = some s') :
    Step id 8 8 s e s' := by
  obtain ⟨⟨reply, s''⟩, hstep, hreply⟩ := Option.bind_eq_some_iff.1 h
  split at hreply
  · rename_i heq
    cases hreply
    exact hstep.trans (congrArg some (Prod.ext heq rfl))
  · cases hreply

/-- Two sessions, and no files. -/
def newServer : State Bool (List Byte) := ⟨⟨[], 0, fun _ => .notOpen⟩, fun _ => none⟩

/-- The pools of `DataBase.created8`. -/
def evicts8 : Evicts := ⟨fun _ => [0], fun _ => [dataKey 0, mapKey 0]⟩

/-- What the session sends, and what it is told. -/
def sent (t : Bool) (message reply : List Byte) : Event Bool × List Byte := (.message t message evicts8, reply)

/-- Both sessions open `a`, and what one sets there the other gets. When both have left, the
first comes back, and the value is there until it is deleted. -/
def conversation : List (Event Bool × List Byte) :=
  [sent true (text "OPEN a") openReply, sent false (text "GET k") Reply.noDatabaseOpenedYet.bytes,
    sent false (text "open a") openReply,
    sent true (text "SET k hello") (text "SET SUCCESSFUL\n"), sent false (text "GET k") (leBytes 8 5 ++ text "hello"),
    (.disconnect true, []), (.disconnect false, []), (.accept true, []), sent true (text "OPEN a") openReply,
    sent true (text "EXIST k") (text "EXIST\n"), sent true (text "DELETE k") (text "DELETE SUCCESSFUL\n"),
    sent true (text "EXIST k") (text "NOT EXIST\n")]

theorem serves_named_maps_conversation : ∃ l' y, Path Maps.Step Maps.new l' y ∧ l'.map Prod.fst = conversation := by
  have hrun : (follow nextWith (fun s e => checked s e.1) conversation newServer).isSome = true := by decide +kernel
  obtain ⟨s, hs⟩ := Option.isSome_iff_exists.1 hrun
  obtain ⟨l, hpath, hl⟩ := path_of_follow (fun s e s' hok hnext =>
    show Restrict (Step id 8 8) (Sound id Set.univ) s e s' from ⟨sound_of_checked hok, step_of_nextWith hnext⟩) hs
  obtain ⟨l', y, hl', htrace⟩ := serves_named_maps (Set.injOn_id _) ⟨⟨rfl, fun _ => rfl⟩, fun _ => rfl⟩ hpath
  exact ⟨l', y, hl', htrace.trans hl⟩

end Service

end MisakiDB.Server
