import MisakiDB.Data.BlobReaders
/-!
# Whole or not at all

A call that no other thread interrupts is one of the runs (`Alone`). `read_whole` is
about every run in which no blob id is given out while it is in use. The first id after
a restart is 1 again, and then a reader may go from one blob over to another:
`mixed_blob`.
-/

namespace MisakiDB.BlobThreads

open Prog PageStore DataFileManager DataAccessor Runs

section
variable {τ : Type} [DecidableEq τ] {s : State τ} {t : τ} {st st' : DataStore}

/-! ## Calls made alone -/

theorem goto_phase (x : Phase) : (s.goto t st x).phase t = x := Function.update_self ..

theorem goto_goto (x y : Phase) : (s.goto t st x).goto t st' y = s.goto t st' y := by
  simp [State.goto, Function.update_idem]

/-- The thread is idle again. -/
theorem goto_idle (ht : s.phase t = .idle) : s.goto t st .idle = { s with store := st } := by
  simp [State.goto, ← ht]

namespace Alone

variable {step : State τ → Event τ → State τ → Prop} {init : State τ → Prop}

/-- The loop of `insertBlob`. -/
theorem insertBlobRest (hother : ∀ s s', Step s .other s' → step s .other s') (fuel : Nat) {w : Insertion}
    {first prev last : Nat} (hfuel : w.rest.length ≤ fuel) (hw : w.written = some (first, prev))
    (hr : Reach init step (s.goto t st (.inserting w)))
    (hrun : run exec (insertBlobRest w.blobID fuel prev w.rest) st = some (last, st')) :
    ∃ w', w'.key = w.key ∧ w'.value = w.value ∧ w'.rest = [] ∧ w'.written = some (first, last) ∧
      Reach init step (s.goto t st' (.inserting w')) := by
  induction fuel generalizing w prev st with
  | zero =>
    obtain ⟨rfl, rfl⟩ : prev = last ∧ st = st' := by simpa [DataAccessor.insertBlobRest, run, Pure.pure] using hrun
    exact ⟨w, rfl, rfl, List.eq_nil_of_length_eq_zero (Nat.le_zero.1 hfuel), hw, hr⟩
  | succ fuel ih =>
    rw [insertBlobRest_sections] at hrun
    by_cases hrest : w.rest = []
    · rw [if_pos hrest] at hrun
      obtain ⟨rfl, rfl⟩ : prev = last ∧ st = st' := by simpa [run, Pure.pure] using hrun
      exact ⟨w, rfl, rfl, hrest, hw, hr⟩
    · rw [if_neg hrest, run_bind] at hrun
      obtain ⟨⟨page, st₁⟩, hnew, hrun⟩ := Option.bind_eq_some_iff.1 hrun
      rw [run_bind] at hrun
      obtain ⟨⟨_, st₂⟩, hwrite, hrun⟩ := Option.bind_eq_some_iff.1 hrun
      have hsize : w.size = min w.rest.length BlobPage.NonHead.MAX_DATA_SIZE := by simp [Insertion.size, hw]
      have h₁ : Step (s.goto t st (.inserting w)) .other (s.goto t st₁ (.placing w page)) := by
        rw [← goto_goto (.inserting w) (.placing w page)]
        exact .newBlobPage (goto_phase _) hrest hnew
      have h₂ : Step (s.goto t st₁ (.placing w page)) .other (s.goto t st₂ (.inserting (w.after page))) := by
        rw [← goto_goto (.placing w page) (.inserting (w.after page))]
        refine .write (goto_phase _) ?_
        rw [Insertion.write, hw, hsize]
        exact hwrite
      have hafter : (w.after page).written = some (first, page) := by simp [Insertion.after, hw]
      have hdrop : (w.after page).rest = w.rest.drop (min w.rest.length BlobPage.NonHead.MAX_DATA_SIZE) := by
        rw [← hsize]
        rfl
      have hlen : (w.after page).rest.length ≤ fuel := by
        have hpos : 0 < w.rest.length := List.length_pos_iff.2 hrest
        rw [hdrop, List.length_drop]
        have : 0 < BlobPage.NonHead.MAX_DATA_SIZE := by decide
        omega
      obtain ⟨w', hkey, hvalue, hrest', hwritten, hr'⟩ :=
        ih hlen hafter (.next (.next hr (hother _ _ h₁)) (hother _ _ h₂)) (by rw [hdrop]; exact hrun)
      exact ⟨w', hkey, hvalue, hrest', hwritten, hr'⟩

/-- `insertBlob`, and the record that names the blob. -/
theorem insertBlob (hother : ∀ s s', Step s .other s' → step s .other s')
    (htake : ∀ s', Step s (.takeBlobID t) s' → step s (.takeBlobID t) s') {key value bytes : List Byte}
    (hr : Reach init step s) (ht : s.phase t = .idle) (hkey : key.length = RECORD_KEY_SIZE)
    (hvalue : DataFilePage.MAX_RECORD_SIZE < value.length)
    (hrun : run exec (insertBlob key value) s.store = some (bytes, st')) :
    Reach init step { s with store := st', live := (key, bytes) :: s.live, stored := (key, value) :: s.stored } := by
  have hne : value ≠ [] := by
    rintro rfl
    exact Nat.not_lt_zero _ hvalue
  rw [insertBlob_sections, run_bind] at hrun
  obtain ⟨⟨blobID, st₁⟩, hid, hrun⟩ := Option.bind_eq_some_iff.1 hrun
  rw [if_neg hne, run_bind] at hrun
  obtain ⟨⟨first, st₂⟩, hnew, hrun⟩ := Option.bind_eq_some_iff.1 hrun
  rw [run_bind] at hrun
  obtain ⟨⟨_, st₃⟩, hwrite, hrun⟩ := Option.bind_eq_some_iff.1 hrun
  rw [run_bind] at hrun
  obtain ⟨⟨last, st₄⟩, hrest, hrun⟩ := Option.bind_eq_some_iff.1 hrun
  rw [run_bind] at hrun
  obtain ⟨⟨_, st₅⟩, hgo, hrun⟩ := Option.bind_eq_some_iff.1 hrun
  rw [run_bind] at hrun
  obtain ⟨⟨_, st₆⟩, hraise, hrun⟩ := Option.bind_eq_some_iff.1 hrun
  obtain ⟨hbytes, rfl⟩ : bytesOf first = some bytes ∧ st₆ = st' := by
    cases hb : bytesOf first with
    | none => simp [demand, hb, run] at hrun
    | some x => simpa [demand, hb, run, Pure.pure] using hrun
  let w : Insertion := ⟨key, value, blobID, none, value⟩
  have h₁ : Reach init step (s.goto t st₁ (.inserting w)) := .next hr (htake _ (.takeBlobID ht hkey hvalue hid))
  have h₂ : Reach init step (s.goto t st₂ (.placing w first)) := by
    refine .next h₁ (hother _ _ ?_)
    rw [← goto_goto (.inserting w) (.placing w first)]
    exact .newBlobPage (goto_phase _) hne hnew
  have h₃ : Reach init step (s.goto t st₃ (.inserting (w.after first))) := by
    refine .next h₂ (hother _ _ ?_)
    rw [← goto_goto (.placing w first) (.inserting (w.after first))]
    exact .write (goto_phase _) hwrite
  obtain ⟨w', hwkey, hwvalue, hwrest, hwritten, h₄⟩ := insertBlobRest hother value.length
    (w := w.after first) (by simp [w, Insertion.after]) rfl h₃ hrest
  have h₅ : Reach init step (s.goto t st₅ (.raising w' first)) := by
    refine .next h₄ (hother _ _ ?_)
    rw [← goto_goto (.inserting w') (.raising w' first)]
    exact .letGo (goto_phase _) hwrest hwritten hgo
  have h₆ : Reach init step { s.goto t st₆ (.inserted key bytes) with stored := (key, value) :: s.stored } := by
    refine .next h₅ (hother _ _ ?_)
    rw [← goto_goto (.raising w' first) (.inserted key bytes)]
    have := Step.raiseHead (s := s.goto t st₅ (.raising w' first)) (t := t) (goto_phase _) hraise hbytes
    rwa [hwkey, hwvalue] at this
  refine .next h₆ (hother _ _ ?_)
  have := Step.insertRecord (s := { s.goto t st₆ (.inserted key bytes) with stored := (key, value) :: s.stored }) (t := t)
    (Function.update_self ..)
  simpa [State.goto, ← ht] using this

/-- The loop of `removeBlob`. -/
theorem removeBlobFrom (hother : ∀ s s', Step s .other s' → step s .other s') (ht : s.phase t = .idle) (fuel : Nat)
    {page : Option Nat} (hr : Reach init step (s.goto t st (.removing page)))
    (hrun : run exec (removeBlobFrom fuel page) st = some ((), st')) : Reach init step { s with store := st' } := by
  induction fuel generalizing page st with
  | zero =>
    cases page with
    | none =>
      obtain rfl : st = st' := by simpa [DataAccessor.removeBlobFrom, run, Pure.pure] using hrun
      refine .next hr (hother _ _ ?_)
      rw [← goto_idle ht, ← goto_goto (.removing none) .idle]
      exact .removed (goto_phase _)
    | some page => simp [DataAccessor.removeBlobFrom, run] at hrun
  | succ fuel ih =>
    cases page with
    | none =>
      obtain rfl : st = st' := by simpa [DataAccessor.removeBlobFrom, run, Pure.pure] using hrun
      refine .next hr (hother _ _ ?_)
      rw [← goto_idle ht, ← goto_goto (.removing none) .idle]
      exact .removed (goto_phase _)
    | some page =>
      rw [removeBlobFrom_sections, run_bind] at hrun
      obtain ⟨⟨p, st₁⟩, hlook, hrun⟩ := Option.bind_eq_some_iff.1 hrun
      rw [run_bind] at hrun
      obtain ⟨⟨b, st₂⟩, hdelete, hrun⟩ := Option.bind_eq_some_iff.1 hrun
      have h₁ : Reach init step (s.goto t st₁ (.deleting page p.next)) := by
        refine .next hr (hother _ _ ?_)
        rw [← goto_goto (.removing (some page)) (.deleting page p.next)]
        exact .readLink (goto_phase _) hlook
      have h₂ : Reach init step (s.goto t st₂ (.removing p.next)) := by
        refine .next h₁ (hother _ _ ?_)
        rw [← goto_goto (.deleting page p.next) (.removing p.next)]
        exact .deleteBlobPage (goto_phase _) hdelete
      exact ih h₂ hrun

/-- The loop of `getBlob`. -/
theorem getBlobRest (hother : ∀ s s', Step s .other s' → step s .other s') (fuel : Nat)
    {key blob : List Byte} {blobID : Nat}
    {next : Option Nat} {r : Option (List Byte)} (hr : Reach init step (s.goto t st (goOn key blobID next blob)))
    (hrun : run exec (getBlobRest blobID fuel next blob) st = some (r, st')) :
    Reach init step (s.goto t st' (.returned key r)) := by
  induction fuel generalizing next blob st with
  | zero =>
    cases next with
    | none =>
      obtain ⟨rfl, rfl⟩ : some blob = r ∧ st = st' := by simpa [DataAccessor.getBlobRest, run, Pure.pure] using hrun
      exact hr
    | some page => simp [DataAccessor.getBlobRest, run] at hrun
  | succ fuel ih =>
    cases next with
    | none =>
      obtain ⟨rfl, rfl⟩ : some blob = r ∧ st = st' := by simpa [DataAccessor.getBlobRest, run, Pure.pure] using hrun
      exact hr
    | some page =>
      rw [getBlobRest_sections, run_bind] at hrun
      obtain ⟨⟨p, st₁⟩, hlook, hrun⟩ := Option.bind_eq_some_iff.1 hrun
      have h₁ : Reach init step (s.goto t st₁ (afterNext key blobID blob p)) := by
        refine .next hr (hother _ _ ?_)
        rw [← goto_goto (goOn key blobID (some page) blob) (afterNext key blobID blob p)]
        exact .readNext (goto_phase _) hlook
      unfold afterNext at h₁
      dsimp only at hrun
      cases hp : nextOf blobID p with
      | none =>
        rw [hp] at h₁ hrun
        obtain ⟨rfl, rfl⟩ : none = r ∧ st₁ = st' := by simpa [run, Pure.pure] using hrun
        exact h₁
      | some y =>
        rw [hp] at h₁ hrun
        exact ih h₁ hrun

/-- `getBlob` on a live record. -/
theorem getBlob (hother : ∀ s s', Step s .other s' → step s .other s') {fuel : Nat} {key bytes : List Byte}
    {r : Option (List Byte)} (hr : Reach init step s) (ht : s.phase t = .idle) (hlive : (key, bytes) ∈ s.live)
    (hrun : run exec (getBlob fuel key bytes) s.store = some (r, st')) :
    Reach init step (s.goto t st' (.returned key r)) := by
  have h₀ : Reach init step (s.goto t s.store (getBlobAt key bytes)) := .next hr (hother _ _ (.getBlob ht hlive))
  rw [getBlob_sections] at hrun
  unfold getBlobAt at h₀
  cases hpage : pageIDOf bytes with
  | none =>
    rw [hpage] at h₀ hrun
    obtain ⟨rfl, rfl⟩ : some [] = r ∧ s.store = st' := by simpa [run, Pure.pure] using hrun
    exact h₀
  | some page =>
    rw [hpage] at h₀ hrun
    dsimp only at hrun
    rw [run_bind] at hrun
    obtain ⟨⟨p, st₁⟩, hlook, hrun⟩ := Option.bind_eq_some_iff.1 hrun
    have h₁ : Reach init step (s.goto t st₁ (afterHead key p)) := by
      refine .next h₀ (hother _ _ ?_)
      rw [← goto_goto (.getting key page) (afterHead key p)]
      exact .readHead (goto_phase _) hlook
    unfold afterHead at h₁
    dsimp only at hrun
    cases hp : headOf key p with
    | none =>
      rw [hp] at h₁ hrun
      obtain ⟨rfl, rfl⟩ : none = r ∧ st₁ = st' := by simpa [run, Pure.pure] using hrun
      exact h₁
    | some y =>
      rw [hp] at h₁ hrun
      exact getBlobRest hother fuel h₁ hrun

end Alone

/-! ## What a reader returns -/

/-- While no blob id is given out that is in use: a value that is returned is one that
was stored under the key. -/
theorem read_whole (h : Reach Init (Restrict Step FreshID) s) {key v : List Byte}
    (hret : s.phase t = .returned key (some v)) : (key, v) ∈ s.stored := by
  obtain ⟨cur, holder, used, free, N, hi⟩ :
      ∃ cur holder used free N, Inv s cur holder used free N := by
    apply Reach.inv (I := fun s => ∃ cur holder used free N, Inv s cur holder used free N)
      (fun s hs => ⟨_, _, _, _, _, init_inv hs⟩) ?_ h
    rintro s e s' ⟨cur, holder, used, free, N, hi⟩ ⟨hok, hstep⟩
    exact hi.step hok hstep
  have hk := hi.knows t
  rw [hret] at hk
  exact hk v rfl

end

def newState (τ : Type) : State τ := ⟨newDataStore, fun _ => .idle, [], []⟩

theorem newState_init (τ : Type) : Init (newState τ) := ⟨rfl, fun _ => rfl, rfl, rfl⟩

/-- In a new file no page has an id. -/
theorem newState_free (τ : Type) (e : Event τ) : FreshID (newState τ) e := by
  cases e with
  | takeBlobID t =>
    have hid : (newState τ).store.member.nextBlobID + 1 = 1 := rfl
    refine ⟨by rw [hid]; decide, fun p b hb hfree => ?_, nofun⟩
    cases newDataStore_blobs.mem_used hb hfree
  | other => trivial

/-- A page of a blob has the blob's id. -/
theorem blobID_of_stored {c : Chain} {flag : Bool} (h : c.Stored st flag) {x : Nat} {b : BlobPage} (hx : x ∈ c.pages)
    (hb : st.page (blobKey x) = some (.blob b)) : b.blobID = c.blobID := by
  rcases List.mem_cons.1 hx with rfl | hx
  · obtain ⟨b', hb', hhead⟩ := h.head
    rw [hb, Option.some.injEq, FilePage.blob.injEq] at hb'
    exact hb' ▸ hhead.blobID
  · obtain ⟨r, hr, rfl⟩ := List.mem_map.1 hx
    obtain ⟨b', hb', htail⟩ := h.tail r hr
    rw [hb, Option.some.injEq, FilePage.blob.injEq] at hb'
    exact hb' ▸ htail.blobID

/-- With one blob in the file, the next id is in use nowhere. -/
theorem stored_free {key value bytes : List Byte} (hkey : key.length = RECORD_KEY_SIZE) (hne : value ≠ [])
    (hrun : run exec (insertBlob key value) newDataStore = some (bytes, st)) :
    st.member.nextBlobID = 1 ∧ ∀ p b, st.page (blobKey p) = some (.blob b) → b.isFreePage = false → b.blobID ≠ 2 := by
  obtain ⟨first, s₁, hstore, c, -, -, -, -, hid, hc, -, hmember, free, N, halloc⟩ :=
    storeBlob_spec newDataStore_blobs (fun _ => rfl) hkey hne
  rw [insertBlob_eq, run_bind, hstore, Option.bind_some] at hrun
  obtain rfl : s₁ = st := by
    cases hb : bytesOf first with
    | none => simp [demand, hb, run] at hrun
    | some x => exact (by simpa [demand, hb, run, Pure.pure] using hrun : x = bytes ∧ s₁ = st).2
  refine ⟨by rw [hmember]; rfl, fun p b hb hfree => ?_⟩
  have hp : p ∈ c.pages := by simpa using halloc.mem_used hb hfree
  rw [blobID_of_stored hc hp hb, hid]
  decide

def someKey : List Byte := List.replicate 24 1

/-- It takes two pages. -/
def someBlob : List Byte := List.replicate 4086 97

def otherBlob : List Byte := List.replicate 4087 98

/-- A reader has the first page of a blob when another blob is stored. -/
def overlapped : Option (List Byte × List Byte × List Byte × Nat × List Byte) := do
  let (x, s₁) ← run exec (insertBlob someKey someBlob) newDataStore
  let (p, s₂) ← run exec (look 1) s₁
  let (y, s₃) ← run exec (insertBlob someKey otherBlob) s₂
  let (q, _) ← run exec (look 2) s₃
  let .reading key blobID 2 blob := afterHead someKey p | none
  let .returned key (some v) := afterNext key blobID blob q | none
  some (x, y, key, blobID, v)

/-- It goes on, and returns the first. -/
theorem read_whole_overlapped : ∃ s : State (Fin 2), s.phase 1 = .returned someKey (some someBlob) ∧
    (someKey, someBlob) ∈ s.stored := by
  have heval : (overlapped.map fun r => (r.1, r.2.1, r.2.2.1, r.2.2.2.1, r.2.2.2.2.length)) =
      some ([1, 0, 0, 0], [3, 0, 0, 0], someKey, 1, 4086) := by decide +kernel
  simp only [overlapped, Option.bind_eq_bind, Option.map_eq_some_iff, Option.bind_eq_some_iff] at heval
  obtain ⟨⟨x, y, key, blobID, v⟩, ⟨⟨x', s₁⟩, hx, ⟨p, s₂⟩, hp, ⟨y', s₃⟩, hy, ⟨q, s₅⟩, hq, hphases⟩, heval⟩ := heval
  obtain ⟨rfl, rfl, rfl, rfl, hlength⟩ : x = [1, 0, 0, 0] ∧ y = [3, 0, 0, 0] ∧ key = someKey ∧ blobID = 1 ∧
      v.length = 4086 := by
    simpa using heval
  dsimp only at hp hy hq hphases
  split at hphases
  next key₁ blobID blob hhead =>
    split at hphases
    next key₂ v' hnext =>
      obtain ⟨rfl, rfl, rfl, rfl, rfl⟩ : x' = [1, 0, 0, 0] ∧ y' = [3, 0, 0, 0] ∧ key₂ = someKey ∧ blobID = 1 ∧
          v' = v := by
        simpa using hphases
      have hother : ∀ s s' : State (Fin 2), Step s .other s' → Restrict Step FreshID s .other s' :=
        fun _ _ hstep => ⟨trivial, hstep⟩
      have hsomeBlob : DataFilePage.MAX_RECORD_SIZE < someBlob.length := by rw [someBlob, List.length_replicate]; decide
      have hotherBlob : DataFilePage.MAX_RECORD_SIZE < otherBlob.length :=
        by rw [otherBlob, List.length_replicate]; decide
      obtain ⟨hmember, hpages⟩ := stored_free rfl (List.ne_nil_of_length_pos (Nat.zero_lt_of_lt hsomeBlob)) hx
      obtain ⟨-, hpage, -, hkept⟩ := look_does p s₂ hp
      let φ : Fin 2 → Phase := Function.update (fun _ => .idle) 1 (.reading key₁ 1 2 blob)
      have r₁ : Reach Init (Restrict Step FreshID)
          (⟨s₁, fun _ => .idle, [(someKey, [1, 0, 0, 0])], [(someKey, someBlob)]⟩ : State (Fin 2)) :=
        Alone.insertBlob (t := 0) hother (fun _ hstep => ⟨newState_free _ _, hstep⟩)
          (.start (newState_init _)) rfl rfl hsomeBlob hx
      have r₂ := r₁.next (hother _ _ (.getBlob (t := 1) rfl List.mem_cons_self))
      have r₃ : Reach Init (Restrict Step FreshID)
          (⟨s₂, φ, [(someKey, [1, 0, 0, 0])], [(someKey, someBlob)]⟩ : State (Fin 2)) := by
        have hstep := r₂.next (hother _ _ (.readHead (goto_phase (.getting someKey 1)) hp))
        rw [goto_goto, hhead] at hstep
        exact hstep
      -- the second blob gets an id of its own
      have hfree : IDFree (⟨s₂, φ, [(someKey, [1, 0, 0, 0])], [(someKey, someBlob)]⟩ : State (Fin 2))
          (s₂.member.nextBlobID + 1) := by
        rw [hkept, hmember]
        refine ⟨by decide, fun p b hb => hpages p b (hpage ▸ hb), fun t key page blob' ht => ?_⟩
        by_cases h1 : t = 1
        · subst h1
          simp [φ] at ht
        · simp [φ, h1] at ht
      have r₄ : Reach Init (Restrict Step FreshID)
          (⟨s₃, φ, [(someKey, [3, 0, 0, 0]), (someKey, [1, 0, 0, 0])],
            [(someKey, otherBlob), (someKey, someBlob)]⟩ : State (Fin 2)) :=
        Alone.insertBlob (t := 0) hother (fun _ hstep => ⟨hfree, hstep⟩) r₃ rfl rfl hotherBlob hy
      have hφ : φ 1 = .reading key₁ 1 2 blob := Function.update_self ..
      have r₅ := r₄.next (hother _ _ (.readNext (t := 1) hφ hq))
      obtain ⟨s, hreach, hret, hstored⟩ : ∃ s : State (Fin 2), Reach Init (Restrict Step FreshID) s ∧
          s.phase 1 = .returned someKey (some v') ∧ s.stored = [(someKey, otherBlob), (someKey, someBlob)] :=
        ⟨_, r₅, (goto_phase _).trans hnext, rfl⟩
      have hmem := read_whole hreach hret
      obtain rfl : v' = someBlob := by
        have hv : v' = otherBlob ∨ v' = someBlob := by simpa [hstored] using hmem
        apply hv.resolve_left
        rintro rfl
        rw [otherBlob, List.length_replicate] at hlength
        cases hlength
      exact ⟨s, hret, hmem⟩
    next => cases hphases
  next => cases hphases

/-- A reader has the first page of a blob that was stored before the restart. The blob
goes, and a new one gets its id and its second page. -/
def mixed : Option (List Byte × List Byte × List Byte × List Byte) := do
  let (x, s₁) ← run exec (insertBlob someKey (List.replicate 12193 97)) newDataStore
  let (p, s₂) ← run exec (look 1) (s₁.reopen.withMember ⟨0⟩)
  let (_, s₃) ← run exec (removeBlobFrom 5 (some 1)) s₂
  let (y, s₄) ← run exec (insertBlob someKey (List.replicate 8121 98)) s₃
  let (q, _) ← run exec (look 2) s₄
  let .reading key blobID 2 blob := afterHead someKey p | none
  let .returned key (some v) := afterNext key blobID blob q | none
  some (x, y, key, v)

/-- What the reader returns is neither of the two blobs. -/
theorem mixed_blob : ∃ s : State (Fin 2), Reach Init Step s ∧ ∃ v, s.phase 1 = .returned someKey (some v) ∧
    (someKey, v) ∉ s.stored := by
  have heval : (mixed.map fun r => (r.1, r.2.1, r.2.2.1, r.2.2.2.length)) =
      some ([1, 0, 0, 0], [4, 0, 0, 0], someKey, 4049) := by decide +kernel
  simp only [mixed, Option.bind_eq_bind, Option.map_eq_some_iff, Option.bind_eq_some_iff] at heval
  obtain ⟨⟨x, y, key, v⟩, ⟨⟨x', s₁⟩, hx, ⟨p, s₂⟩, hp, ⟨_, s₃⟩, hremove, ⟨y', s₄⟩, hy, ⟨q, s₅⟩, hq, hphases⟩, heval⟩ :=
    heval
  dsimp only at hp hremove hy hq hphases heval
  split at hphases
  next key₁ blobID blob hhead =>
    split at hphases
    next key₂ v₂ hnext =>
      obtain ⟨rfl, rfl, rfl, rfl⟩ : x' = x ∧ y' = y ∧ key₂ = key ∧ v₂ = v := by simpa using hphases
      obtain ⟨rfl, rfl, rfl, hlength⟩ : x' = [1, 0, 0, 0] ∧ y' = [4, 0, 0, 0] ∧ key₂ = someKey ∧ v₂.length = 4049 := by
        simpa using heval
      have hother : ∀ s s' : State (Fin 2), Step s .other s' → Step s .other s' := fun _ _ hstep => hstep
      let X := List.replicate 12193 (97 : Byte)
      let Y := List.replicate 8121 (98 : Byte)
      have hX : DataFilePage.MAX_RECORD_SIZE < X.length := by rw [List.length_replicate]; decide
      have hY : DataFilePage.MAX_RECORD_SIZE < Y.length := by rw [List.length_replicate]; decide
      -- the reader has seen the first page
      let φ : Fin 2 → Phase := Function.update (fun _ => .idle) 1 (.reading key₁ blobID 2 blob)
      have r₁ : Reach Init Step (⟨s₁, fun _ => .idle, [(someKey, [1, 0, 0, 0])], [(someKey, X)]⟩ : State (Fin 2)) :=
        Alone.insertBlob (t := 0) hother (fun _ hstep => hstep) (.start (newState_init (Fin 2))) rfl rfl hX hx
      have r₂ : Reach Init Step
          (⟨s₁.reopen.withMember ⟨0⟩, fun _ => .idle, [(someKey, [1, 0, 0, 0])], [(someKey, X)]⟩ : State (Fin 2)) :=
        .next r₁ (.reopen fun _ => rfl)
      have r₃ := Reach.next r₂ (.getBlob (t := 1) rfl List.mem_cons_self)
      have r₄ : Reach Init Step (⟨s₂, φ, [(someKey, [1, 0, 0, 0])], [(someKey, X)]⟩ : State (Fin 2)) := by
        have hstep := Reach.next r₃ (.readHead (goto_phase (.getting someKey 1)) hp)
        rw [goto_goto, hhead] at hstep
        exact hstep
      -- the blob goes, and another comes
      have r₅ : Reach Init Step ((⟨s₂, φ, [], [(someKey, X)]⟩ : State (Fin 2)).goto 0 s₂ (.removing (some 1))) := by
        have hstep := Reach.next r₄ (.removeRecord (t := 0) rfl List.mem_cons_self)
        rw [List.erase_cons_head] at hstep
        exact hstep
      have r₆ : Reach Init Step (⟨s₃, φ, [], [(someKey, X)]⟩ : State (Fin 2)) :=
        Alone.removeBlobFrom (t := 0) hother rfl 5 r₅ hremove
      have r₇ : Reach Init Step (⟨s₄, φ, [(someKey, [4, 0, 0, 0])], [(someKey, Y), (someKey, X)]⟩ : State (Fin 2)) :=
        Alone.insertBlob (t := 0) hother (fun _ hstep => hstep) r₆ rfl rfl hY hy
      have hφ : φ 1 = .reading key₁ blobID 2 blob := Function.update_self ..
      have r₈ := Reach.next r₇ (.readNext (t := 1) hφ hq)
      refine ⟨_, r₈, v₂, (goto_phase _).trans hnext, fun hmem => ?_⟩
      have hmem' : v₂ = Y ∨ v₂ = X := by simpa [State.goto] using hmem
      rcases hmem' with rfl | rfl
      · rw [List.length_replicate] at hlength
        cases hlength
      · rw [List.length_replicate] at hlength
        cases hlength
    next => cases hphases
  next => cases hphases

end MisakiDB.BlobThreads
