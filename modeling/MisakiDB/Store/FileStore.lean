import MisakiDB.GenericKey
import MisakiDB.Lib.Runs
import Mathlib.Data.Set.BooleanAlgebra
import Mathlib.Order.CompletePartialOrder
/-!
# `FileStore`

Four files of pages, each behind an `fstream`. The offset of a page is its id
shifted by 12 bits in the width of the id, so ids that agree modulo `2 ^ 20` share
an offset: the store is faithful on a set of page ids exactly when no two of them
agree so (`faithfulOn_iff`).
-/

namespace MisakiDB

abbrev RawPage := Fin PAGE_SIZE → Byte

/-- A file behind a stream. `fail` is the failbit: a read past the end sets it, and
nothing clears it. -/
structure FStream where
  size : Nat
  byte : Nat → Byte
  fail : Bool

namespace FStream

/-- Bytes between the old end and the offset are zero. -/
def write (f : FStream) (offset : Nat) (raw : RawPage) : FStream :=
  if f.fail then f
  else { f with
    size := max f.size (offset + PAGE_SIZE)
    byte := fun i => if h : offset ≤ i ∧ i - offset < PAGE_SIZE then raw ⟨i - offset, h.2⟩
      else if i < f.size then f.byte i else 0 }

def read (f : FStream) (offset : Nat) : Option RawPage × FStream :=
  if f.fail then (none, f)
  else if offset + PAGE_SIZE ≤ f.size then (some fun i => f.byte (offset + i), f)
  else (none, { f with fail := true })

variable {f : FStream} {o u : Nat} {raw r : RawPage}

theorem write_fail : (f.write o raw).fail = f.fail := by
  rw [write]
  split <;> rfl

theorem read_write_self (hf : f.fail = false) : ((f.write o raw).read o).1 = some raw := by
  have hsize : o + PAGE_SIZE ≤ (f.write o raw).size := by
    rw [write, if_neg (by simp [hf])]
    exact le_max_right _ _
  rw [read, write_fail, hf, if_neg (by simp), if_pos hsize]
  refine congrArg some (funext fun i => ?_)
  simp [write, hf]

/-- A write to other bytes. -/
theorem read_write_ne (h : o + PAGE_SIZE ≤ u ∨ u + PAGE_SIZE ≤ o) (hr : (f.read o).1 = some r) :
    ((f.write u raw).read o).1 = some r := by
  rw [read] at hr
  split at hr
  · simp at hr
  rename_i hf
  split at hr
  · rename_i hsize
    have hsize' : o + PAGE_SIZE ≤ (f.write u raw).size := by
      rw [write, if_neg hf]
      exact le_trans hsize (le_max_left _ _)
    rw [read, write_fail, if_neg hf, if_pos hsize', ← hr]
    refine congrArg some (funext fun i => ?_)
    have hi := i.isLt
    have hout : ¬ (u ≤ o + i ∧ o + i - u < PAGE_SIZE) := by omega
    rw [write, if_neg hf]
    simp only [hout, dif_neg, not_false_eq_true]
    exact if_pos (by omega)
  · simp at hr

end FStream

structure FileStore where
  file : FileType → FStream

namespace FileStore

/-- `pageID << 12`, which is as wide as `pageID`; only the result is widened. -/
def pageIDToOffset (pageID : BitVec 32) : BitVec 64 := (pageID <<< 12).setWidth 64

/-- No result is an exception: a wrong file type, or less than a page to read. -/
def readRawPage (s : FileStore) (fileType : FileType) (pageID : BitVec 32) : Option RawPage × FileStore :=
  match fileType with
  | .INVALID => (none, s)
  | _ =>
    let r := (s.file fileType).read (pageIDToOffset pageID).toNat
    (r.1, ⟨Function.update s.file fileType r.2⟩)

def writeRawPage (s : FileStore) (fileType : FileType) (pageID : BitVec 32) (raw : RawPage) : Option FileStore :=
  match fileType with
  | .INVALID => none
  | _ => some ⟨Function.update s.file fileType ((s.file fileType).write (pageIDToOffset pageID).toNat raw)⟩

/-- One call of `writeRawPage`. -/
structure Write where
  fileType : FileType
  pageID : BitVec 32
  raw : RawPage

def writeAll : List Write → FileStore → Option FileStore
  | [], s => some s
  | w :: ws, s => (s.writeRawPage w.fileType w.pageID w.raw).bind (writeAll ws)

/-- What was last written to the page. -/
def lastWritten : List Write → FileType → BitVec 32 → Option RawPage
  | [], _, _ => none
  | w :: ws, t, p => (lastWritten ws t p).or (if w.fileType = t ∧ w.pageID = p then some w.raw else none)

/-- The bytes of a page in its file. -/
def range (p : BitVec 32) : Set Nat := { i | (pageIDToOffset p).toNat ≤ i ∧ i < (pageIDToOffset p).toNat + PAGE_SIZE }

/-- No stream has failed. -/
def Healthy (s : FileStore) : Prop := ∀ t, (s.file t).fail = false

/-- The store keeps the pages named by `S` apart, whatever is written to them. -/
structure FaithfulOn (S : Set (BitVec 32)) : Prop where
  last : ∀ (s : FileStore) (ws : List Write), s.Healthy → (∀ w ∈ ws, w.fileType ≠ .INVALID ∧ w.pageID ∈ S) →
    ∃ s', writeAll ws s = some s' ∧
      ∀ t p raw, t ≠ .INVALID → lastWritten ws t p = some raw → (s'.readRawPage t p).1 = some raw
  other : ∀ (s s' : FileStore) t p u q raw r, p ∈ S → q ∈ S → (t, p) ≠ (u, q) → s.writeRawPage u q raw = some s' →
    (s.readRawPage t p).1 = some r → (s'.readRawPage t p).1 = some r
  disjoint : ∀ p ∈ S, ∀ q ∈ S, p ≠ q → Disjoint (range p) (range q)

/-! ## Offsets -/

theorem pageIDToOffset_toNat (p : BitVec 32) : (pageIDToOffset p).toNat = 4096 * (p.toNat % 2 ^ 20) := by
  have h : (p <<< 12).toNat = 4096 * (p.toNat % 2 ^ 20) := by
    rw [BitVec.toNat_shiftLeft, Nat.shiftLeft_eq, Nat.mul_comm]
    exact Nat.mul_mod_mul_left (2 ^ 12) p.toNat (2 ^ 20)
  rw [pageIDToOffset, BitVec.toNat_setWidth, h]
  exact Nat.mod_eq_of_lt (by omega)

theorem offsets_apart {p q : BitVec 32} (h : p.toNat % 2 ^ 20 ≠ q.toNat % 2 ^ 20) :
    (pageIDToOffset p).toNat + PAGE_SIZE ≤ (pageIDToOffset q).toNat ∨
    (pageIDToOffset q).toNat + PAGE_SIZE ≤ (pageIDToOffset p).toNat := by
  rw [pageIDToOffset_toNat, pageIDToOffset_toNat, PAGE_SIZE]
  omega

/-! ## Reads after writes -/

section Writes
variable {s s' : FileStore} {t u : FileType} {p q : BitVec 32} {raw r : RawPage}

theorem writeRawPage_eq (h : t ≠ .INVALID) : s.writeRawPage t p raw =
    some ⟨Function.update s.file t ((s.file t).write (pageIDToOffset p).toNat raw)⟩ := by
  cases t <;> first | exact absurd rfl h | rfl

theorem readRawPage_eq (h : t ≠ .INVALID) : (s.readRawPage t p).1 = ((s.file t).read (pageIDToOffset p).toNat).1 := by
  cases t <;> first | exact absurd rfl h | rfl

theorem Healthy.write (hs : s.Healthy) (hw : s.writeRawPage t p raw = some s') : s'.Healthy := by
  rcases eq_or_ne t .INVALID with rfl | ht
  · cases hw
  rw [writeRawPage_eq ht, Option.some.injEq] at hw
  subst hw
  intro u
  by_cases hu : u = t
  · subst hu
    simpa [FStream.write_fail] using hs u
  · simpa [hu] using hs u

theorem read_write (hs : s.Healthy) (ht : t ≠ .INVALID) (hw : s.writeRawPage t p raw = some s') :
    (s'.readRawPage t p).1 = some raw := by
  rw [writeRawPage_eq ht, Option.some.injEq] at hw
  subst hw
  rw [readRawPage_eq ht]
  simpa using FStream.read_write_self (hs t)

theorem read_write_other (h : t ≠ u ∨ p.toNat % 2 ^ 20 ≠ q.toNat % 2 ^ 20) (hw : s.writeRawPage u q raw = some s')
    (hr : (s.readRawPage t p).1 = some r) : (s'.readRawPage t p).1 = some r := by
  rcases eq_or_ne t .INVALID with rfl | ht
  · cases hr
  rcases eq_or_ne u .INVALID with rfl | hu
  · cases hw
  rw [writeRawPage_eq hu, Option.some.injEq] at hw
  subst hw
  rw [readRawPage_eq ht] at hr ⊢
  by_cases htu : t = u
  · subst htu
    have hne := h.resolve_left (by simp)
    simpa using FStream.read_write_ne (offsets_apart hne) hr
  · simpa [htu] using hr

theorem healthy_writeAll {ws : List Write} (hs : s.Healthy) (hws : ∀ w ∈ ws, w.fileType ≠ .INVALID) :
    ∃ s', writeAll ws s = some s' ∧ s'.Healthy := by
  induction ws generalizing s with
  | nil => exact ⟨s, rfl, hs⟩
  | cons w ws ih =>
    obtain ⟨u, hw⟩ : ∃ u, s.writeRawPage w.fileType w.pageID w.raw = some u := ⟨_, writeRawPage_eq (hws w (by simp))⟩
    obtain ⟨s', h', hs'⟩ := ih (hs.write hw) fun v hv => hws v (by simp [hv])
    exact ⟨s', by rw [writeAll, hw]; exact h', hs'⟩

/-- What a history leaves on a page: what was last written to it, or what was there. -/
theorem read_writeAll {S : Set (BitVec 32)} (hS : Set.InjOn (fun p : BitVec 32 => p.toNat % 2 ^ 20) S) {ws : List Write}
    (hs : s.Healthy) (hws : ∀ w ∈ ws, w.fileType ≠ .INVALID ∧ w.pageID ∈ S) (hw : writeAll ws s = some s')
    (ht : t ≠ .INVALID) (hp : p ∈ S) (hr : (lastWritten ws t p).or (s.readRawPage t p).1 = some r) :
    (s'.readRawPage t p).1 = some r := by
  induction ws generalizing s with
  | nil =>
    obtain rfl : s = s' := by simpa [writeAll] using hw
    simpa [lastWritten] using hr
  | cons w ws ih =>
    obtain ⟨s1, h1, h2⟩ := Option.bind_eq_some_iff.1 hw
    have hS1 := hws w (by simp)
    apply ih (hs.write h1) (fun v hv => hws v (by simp [hv])) h2
    rw [lastWritten, Option.or_assoc] at hr
    cases hl : lastWritten ws t p with
    | some r' => simpa [hl] using hr
    | none =>
      rw [hl, Option.none_or] at hr
      rw [Option.none_or]
      by_cases hwp : w.fileType = t ∧ w.pageID = p
      · obtain ⟨rfl, rfl⟩ := hwp
        have := read_write hs ht h1
        simp only [and_self, if_true, Option.some_or, Option.some.injEq] at hr
        rw [this, hr]
      · rw [if_neg hwp, Option.none_or] at hr
        refine read_write_other ?_ h1 hr
        by_cases htw : t = w.fileType
        · exact .inr fun hmod => hwp ⟨htw.symm, hS hS1.2 hp hmod.symm⟩
        · exact .inl htw

theorem lastWritten_mem {ws : List Write} (h : lastWritten ws t p = some raw) : ∃ w ∈ ws, w.pageID = p := by
  induction ws with
  | nil => cases h
  | cons w ws ih =>
    rw [lastWritten, Option.or_eq_some_iff] at h
    rcases h with h | ⟨-, h⟩
    · obtain ⟨v, hv, hp⟩ := ih h
      exact ⟨v, by simp [hv], hp⟩
    · split at h
      · rename_i hw
        exact ⟨w, by simp, hw.2⟩
      · cases h

end Writes

/-- The store keeps the pages named by `S` apart exactly when their ids are pairwise
different modulo `2 ^ 20`. -/
theorem faithfulOn_iff (S : Set (BitVec 32)) : FaithfulOn S ↔ Set.InjOn (fun p : BitVec 32 => p.toNat % 2 ^ 20) S := by
  constructor
  · intro h p hp q hq hmod
    by_contra hne
    have hoff : (pageIDToOffset p).toNat = (pageIDToOffset q).toNat := by
      rw [pageIDToOffset_toNat, pageIDToOffset_toNat]
      exact congrArg (4096 * ·) hmod
    have hfirst : ∀ x, (pageIDToOffset x).toNat ∈ range x := fun x => ⟨le_rfl, by rw [PAGE_SIZE]; omega⟩
    exact Set.disjoint_left.1 (h.disjoint p hp q hq hne) (hfirst p) (hoff ▸ hfirst q)
  · intro h
    refine ⟨fun s ws hs hws => ?_, fun s s' t p u q raw r hp hq hne hw hr => ?_, fun p hp q hq hne => ?_⟩
    · obtain ⟨s', hw, -⟩ := healthy_writeAll hs fun w hw => (hws w hw).1
      refine ⟨s', hw, fun t p raw ht hl => ?_⟩
      obtain ⟨w, hmem, rfl⟩ := lastWritten_mem hl
      exact read_writeAll h hs hws hw ht (hws w hmem).2 (by rw [hl]; rfl)
    · refine read_write_other ?_ hw hr
      by_cases htu : t = u
      · exact .inr fun hmod => hne (by rw [htu, h hp hq hmod])
      · exact .inl htu
    · rw [Set.disjoint_left]
      rintro i hi hi'
      obtain ⟨h1, h2⟩ := hi
      obtain ⟨h3, h4⟩ := hi'
      rcases offsets_apart fun hmod => hne (h hp hq hmod) with ho | ho <;> omega

/-- A write to page `2 ^ 20` of a file lands on its header page. -/
theorem page_aliases_header : ¬ FaithfulOn { p | p ≠ BitVec.allOnes 32 } := by
  intro h
  obtain ⟨s', hw, hlast⟩ := h.last ⟨fun _ => ⟨0, fun _ => 0, false⟩⟩
    [⟨.INDEX, 0, fun _ => 1⟩, ⟨.INDEX, 0x100000, fun _ => 2⟩] (fun _ => rfl) (by simp)
  have hread := hlast .INDEX 0 (fun _ => 1) (by decide) rfl
  obtain rfl := Option.some.inj hw
  have hbyte := congrArg (fun r => r.map (· ⟨0, by decide⟩)) hread
  exact absurd hbyte (by decide)

/-! ## Runs with reads that throw -/

/-- A store, and what the calls that returned wrote last. -/
structure RunState where
  store : FileStore
  written : FileType → BitVec 32 → Option RawPage

inductive IOCall
  | read (fileType : FileType) (pageID : BitVec 32)
  | write (fileType : FileType) (pageID : BitVec 32) (raw : RawPage)

inductive Step (s : RunState) : IOCall → RunState → Prop
  /-- Returned or thrown. -/
  | read (t p) : Step s (.read t p) { s with store := (s.store.readRawPage t p).2 }
  | write {t p raw store} : s.store.writeRawPage t p raw = some store →
      Step s (.write t p raw) ⟨store, Function.update s.written t (Function.update (s.written t) p (some raw))⟩
  | writeThrown {t p raw} : s.store.writeRawPage t p raw = none → Step s (.write t p raw) s

def Init (s : RunState) : Prop := s.store.Healthy ∧ ∀ t p, s.written t p = none

/-- Every page is as it was written. -/
def Stored (s : RunState) : Prop := ∀ t p raw, s.written t p = some raw → (s.store.readRawPage t p).1 = some raw

/-- A read stays within the file, and a write misses the pages written before. -/
def Within (s : RunState) : IOCall → Prop
  | .read t p => t = .INVALID ∨ (pageIDToOffset p).toNat + PAGE_SIZE ≤ (s.store.file t).size
  | .write t p _ => ∀ q, q ≠ p → s.written t q ≠ none → q.toNat % 2 ^ 20 ≠ p.toNat % 2 ^ 20

section FailedReads
variable {s s' : RunState} {t : FileType} {p : BitVec 32} {raw : RawPage}

/-- A read within the file leaves everything as it is. -/
theorem readRawPage_within {s : FileStore} (hs : s.Healthy)
    (h : t = .INVALID ∨ (pageIDToOffset p).toNat + PAGE_SIZE ≤ (s.file t).size) : (s.readRawPage t p).2 = s := by
  rcases eq_or_ne t .INVALID with rfl | ht
  · rfl
  have hread : ((s.file t).read (pageIDToOffset p).toNat).2 = s.file t := by
    rw [FStream.read, hs t, if_neg (by simp), if_pos (h.resolve_left ht)]
  have heq : (s.readRawPage t p).2 = ⟨Function.update s.file t ((s.file t).read (pageIDToOffset p).toNat).2⟩ := by
    cases t <;> first | exact absurd rfl ht | rfl
  rw [heq, hread, Function.update_eq_self]

/-- In a healthy store. -/
theorem stored_step (hs : s.store.Healthy) (h : Stored s) {c : IOCall} (hc : Within s c) (hstep : Step s c s') :
    s'.store.Healthy ∧ Stored s' := by
  cases hstep with
  | read t p =>
    have hsame := readRawPage_within hs hc
    refine ⟨?_, fun u q r hr => ?_⟩
    · rw [hsame]
      exact hs
    · rw [hsame]
      exact h u q r hr
  | @write t p raw store hw =>
    refine ⟨hs.write hw, fun u q r hr => ?_⟩
    have ht : t ≠ .INVALID := by
      rintro rfl
      cases hw
    by_cases hut : u = t
    · subst hut
      by_cases hqp : q = p
      · subst hqp
        obtain rfl : raw = r := by simpa using hr
        exact read_write hs ht hw
      · have hr' : s.written u q = some r := by simpa [hqp] using hr
        have hne := hc q hqp (by rw [hr']; exact Option.some_ne_none r)
        exact read_write_other (.inr hne) hw (h u q r hr')
    · have hr' : s.written u q = some r := by simpa [hut] using hr
      exact read_write_other (.inl hut) hw (h u q r hr')
  | writeThrown _ => exact ⟨hs, h⟩

/-- As long as no read goes past the end of its file, every page is as the last write
that returned left it. -/
theorem stored_of_within (hs : Runs.Reach Init (Runs.Restrict Step Within) s) : Stored s := by
  have h : s.store.Healthy ∧ Stored s := by
    refine hs.inv (I := fun s => s.store.Healthy ∧ Stored s) (fun s h => ⟨h.1, fun t p raw hr => ?_⟩)
      fun s c s' h hstep => stored_step h.1 h.2 hstep.1 hstep.2
    rw [h.2 t p] at hr
    cases hr
  exact h.2

end FailedReads

/-- A page is written, and read. -/
theorem stored_of_within_one : ∃ s, s.written .INDEX 0 = some (fun _ => 1) ∧ Stored s := by
  have h0 : Runs.Reach Init (Runs.Restrict Step Within) ⟨⟨fun _ => ⟨0, fun _ => 0, false⟩⟩, fun _ _ => none⟩ :=
    .start ⟨fun _ => rfl, fun _ _ => rfl⟩
  have hw : Within ⟨⟨fun _ => ⟨0, fun _ => 0, false⟩⟩, fun _ _ => none⟩ (.write .INDEX 0 fun _ => 1) :=
    fun _ _ hq => absurd rfl hq
  have h1 := Runs.Reach.next h0 ⟨hw, Step.write rfl⟩
  have hr : Within ⟨⟨Function.update (fun _ => ⟨0, fun _ => 0, false⟩) .INDEX
      (FStream.write ⟨0, fun _ => 0, false⟩ (pageIDToOffset 0).toNat fun _ => 1)⟩,
      Function.update (fun _ _ => none) .INDEX (Function.update (fun _ => none) 0 (some fun _ => 1))⟩ (.read .INDEX 0) :=
    .inr (by decide)
  have h2 := Runs.Reach.next h1 ⟨hr, Step.read .INDEX 0⟩
  exact ⟨_, rfl, stored_of_within h2⟩

/-- After a read past the end, a write returns and stores nothing. -/
theorem write_lost : ¬ ∀ s, Runs.Reach Init Step s → Stored s := by
  intro h
  have h0 : Runs.Reach Init Step ⟨⟨fun _ => ⟨0, fun _ => 0, false⟩⟩, fun _ _ => none⟩ :=
    .start ⟨fun _ => rfl, fun _ _ => rfl⟩
  have h1 := Runs.Reach.next h0 (Step.read .INDEX 5)
  have hwrite : ∀ (s : RunState) store, s.store.writeRawPage .INDEX 5 (fun _ => 1) = some store →
      Step s (.write .INDEX 5 fun _ => 1) _ := fun _ _ hw => .write hw
  have h2 := Runs.Reach.next h1 (hwrite _ _ rfl)
  have hread := congrArg Option.isSome (h _ h2 .INDEX 5 (fun _ => 1) rfl)
  exact absurd hread (by decide)

end FileStore

end MisakiDB
