import MisakiDB.Index.Evictions
import MisakiDB.Lib.Runs
/-!
# The index file under its clients

Clients take pages with `newIndexPage`, give them back with `deleteIndexPage`, and
fetch, write and unpin pages in between, while the pool evicts what it likes. A page
is `.free` when its first bytes are the magic number, so a client that never writes
that number writes anything else.

The `Ledger` is what the calls said: the pages that were returned and not deleted,
and those deleted and not returned since, last deleted first. `Books` ties the header
and the free list in the file to it.
-/

namespace MisakiDB

open Prog PageStore Runs

structure Ledger where
  live : List Nat
  freed : List Nat

namespace Ledger

/-- The number of pages of the file, with the header. -/
def pages (l : Ledger) : Nat := l.live.length + l.freed.length + 1

/-- The last page freed, or the page after the last one. -/
def next (l : Ledger) : Nat := l.freed.head?.getD l.pages

def returned (l : Ledger) (q : Nat) : Ledger := ⟨q :: l.live, l.freed.erase q⟩

def deleted (l : Ledger) (k : Nat) (b : Bool) : Ledger := if b then ⟨l.live.erase k, k :: l.freed⟩ else l

end Ledger

variable {K V : Type}

/-- The file says what the ledger says. -/
structure Books (s : IndexStore K V) (l : Ledger) : Prop where
  header : ∃ h, s.page 0 = some (.header h) ∧ h.nextPageID = l.pages ∧ FreeChain s h.freePageListHeader l.freed
  perm : (l.live ++ l.freed).Perm (List.range' 1 (l.pages - 1))
  live : ∀ x ∈ l.live, ∃ p, s.page x = some p ∧ ∀ f, p ≠ .free f
  fresh : ∀ x, l.pages ≤ x → s.page x = none

namespace Books

variable {s s' : IndexStore K V} {l : Ledger}

theorem nodup (hb : Books s l) : (l.live ++ l.freed).Nodup := hb.perm.nodup_iff.2 List.nodup_range'

theorem mem_iff (hb : Books s l) (x : Nat) : x ∈ l.live ∨ x ∈ l.freed ↔ 1 ≤ x ∧ x < l.pages := by
  have := hb.perm.mem_iff (a := x)
  rw [List.mem_append, List.mem_range'_1] at this
  rw [this]
  unfold Ledger.pages
  omega

theorem ne_zero (hb : Books s l) {x : Nat} (hx : x ∈ l.live ∨ x ∈ l.freed) : x ≠ 0 := by
  have := (hb.mem_iff x).1 hx
  omega

theorem disjoint (hb : Books s l) {x : Nat} (hx : x ∈ l.live) : x ∉ l.freed :=
  fun hf => (List.nodup_append.1 hb.nodup).2.2 x hx x hf rfl

theorem free_page (hb : Books s l) {x : Nat} (hx : x ∈ l.freed) : ∃ f, s.page x = some (.free f) := by
  obtain ⟨h, -, -, hc⟩ := hb.header
  generalize h.freePageListHeader = start at hc
  revert hx hc
  generalize l.freed = free
  induction free generalizing start with
  | nil => simp
  | cons y free ih =>
    rintro hx ⟨-, f, hf, hc⟩
    rcases List.mem_cons.1 hx with rfl | hx
    · exact ⟨f, hf⟩
    · exact ih _ hx hc

/-- Every page of the file exists. -/
theorem page (hb : Books s l) {x : Nat} (hx : x < l.pages) : ∃ p, s.page x = some p := by
  rcases Nat.eq_zero_or_pos x with rfl | hpos
  · obtain ⟨h, hh, -⟩ := hb.header
    exact ⟨_, hh⟩
  · rcases (hb.mem_iff x).2 ⟨hpos, hx⟩ with hl | hf
    · obtain ⟨p, hp, -⟩ := hb.live x hl
      exact ⟨p, hp⟩
    · obtain ⟨f, hf⟩ := hb.free_page hf
      exact ⟨_, hf⟩

/-- A live page gets other content, the pins are whatever they are. -/
theorem frame (hb : Books s l) (hp : ∀ x, x ∉ l.live → s'.page x = s.page x)
    (hl : ∀ x ∈ l.live, ∃ p, s'.page x = some p ∧ ∀ f, p ≠ .free f) : Books s' l := by
  obtain ⟨h, hh, hn, hc⟩ := hb.header
  refine ⟨⟨h, ?_, hn, hc.frame fun x hx => hp x fun hl => hb.disjoint hl hx⟩, hb.perm, hl, fun x hx => ?_⟩
  · rw [hp 0 fun h0 => hb.ne_zero (.inl h0) rfl, hh]
  · rw [hp x fun hl => ?_, hb.fresh x hx]
    have := (hb.mem_iff x).1 (.inl hl)
    omega

end Books

/-! ## The two calls on the books -/

section Calls
variable {s : IndexStore K V} {l : Ledger}

theorem Books.next_ne_zero (hb : Books s l) : l.next ≠ 0 := by
  unfold Ledger.next
  rcases hf : l.freed with _ | ⟨q, free⟩
  · exact Nat.succ_ne_zero _
  · exact hb.ne_zero (.inr (by simp [hf]))

theorem Books.next_not_live (hb : Books s l) : l.next ∉ l.live := by
  unfold Ledger.next
  rcases hf : l.freed with _ | ⟨q, free⟩
  · intro hl
    have := (hb.mem_iff _).1 (.inl hl)
    simp only [List.head?_nil, Option.getD_none] at this
    omega
  · exact fun hl => hb.disjoint hl (by simp [hf])

theorem Books.next_le (hb : Books s l) : l.next < (l.returned l.next).pages ∧ l.pages ≤ (l.returned l.next).pages := by
  rcases hf : l.freed with _ | ⟨q, free⟩
  · simp [Ledger.returned, Ledger.next, Ledger.pages, hf]
  · have := (hb.mem_iff q).1 (.inr (by simp [hf]))
    simp only [Ledger.pages, hf, List.length_cons] at this
    simp only [Ledger.returned, Ledger.next, Ledger.pages, hf, List.head?_cons, Option.getD_some, List.erase_cons_head,
      List.length_cons]
    omega

theorem Books.perm_returned (hb : Books s l) :
    ((l.returned l.next).live ++ (l.returned l.next).freed).Perm (List.range' 1 ((l.returned l.next).pages - 1)) := by
  have hperm := hb.perm
  rcases hf : l.freed with _ | ⟨q, free⟩
  · simp only [hf, Ledger.pages, List.append_nil, List.length_nil, Nat.add_zero, Nat.add_sub_cancel] at hperm
    simp only [Ledger.returned, Ledger.next, Ledger.pages, hf, List.head?_nil, Option.getD_none, List.erase_nil,
      List.append_nil, List.length_cons, List.length_nil, Nat.add_zero, Nat.add_sub_cancel]
    rw [List.range'_concat, one_mul, Nat.add_comm 1]
    exact (hperm.cons _).trans (List.perm_append_singleton _ _).symm
  · simp only [Ledger.returned, Ledger.next, Ledger.pages, hf, List.head?_cons, Option.getD_some, List.erase_cons_head,
      List.length_cons] at hperm ⊢
    refine List.perm_middle.symm.trans (hperm.trans ?_)
    rw [show l.live.length + (free.length + 1) + 1 - 1 = l.live.length + 1 + free.length + 1 - 1 by omega]

/-- What `newIndexPage` leaves. -/
structure Given (s : IndexStore K V) (l : Ledger) (q : Nat) (s' : IndexStore K V) : Prop where
  next : q = l.next
  zero : s'.page q = some .zero
  others : ∀ x, x ≠ 0 → x ≠ q → s'.page x = s.page x
  pins : s'.pins = Function.update s.pins q (s.pins q + 1)
  books : Books s' (l.returned q)

theorem Books.returned {s' : IndexStore K V} (hb : Books s l) (hzero : s'.page l.next = some .zero)
    (hothers : ∀ x, x ≠ 0 → x ≠ l.next → s'.page x = s.page x)
    (hheader : ∃ h, s'.page 0 = some (.header h) ∧ h.nextPageID = (l.returned l.next).pages ∧
      FreeChain s' h.freePageListHeader (l.returned l.next).freed) : Books s' (l.returned l.next) := by
  refine ⟨hheader, hb.perm_returned, fun x hx => ?_, fun x hx => ?_⟩
  · rcases List.mem_cons.1 hx with rfl | hx
    · exact ⟨_, hzero, fun f hf => by cases hf⟩
    · rw [hothers x (hb.ne_zero (.inl hx)) fun he => hb.next_not_live (he ▸ hx)]
      exact hb.live x hx
  · have hle := hb.next_le
    have hpos : 0 < l.pages := Nat.succ_pos _
    rw [hothers x (by omega) (by omega)]
    exact hb.fresh x (by omega)

theorem newIndexPage_books (hb : Books s l) : wp exec newIndexPage (Given s l) s := by
  obtain ⟨h, hh, hn, hc⟩ := hb.header
  have hpins : ∀ q : Nat, q ≠ 0 →
      Function.update (Function.update (Function.update s.pins 0 (s.pins 0 + 1)) q (s.pins q + 1)) 0 (s.pins 0) =
        Function.update s.pins q (s.pins q + 1) := by
    intro q hq
    funext x
    rcases eq_or_ne x 0 with rfl | h0
    · simp [Ne.symm hq]
    · rcases eq_or_ne x q with rfl | hx <;> simp [*]
  by_cases hfree : l.freed = []
  · -- the file grows
    have hnext : l.next = l.pages := by simp [Ledger.next, hfree]
    have hnone : h.freePageListHeader = none := by
      rw [hfree] at hc
      exact hc
    have hq0 : l.pages ≠ 0 := Nat.succ_ne_zero _
    have hfr := hb.fresh _ le_rfl
    simp only [newIndexPage, wp_bind, wp_fetchPage, wp_getHeader, wp_unpinPage, wp_pure, setPins_page, hh,
      Option.some.injEq, IndexFilePage.header.injEq, exists_eq_left', hnone, wp_appendNewPage, wp_setData, setPage_page,
      setPage_pins, setPins_pins, hn]
    refine ⟨⟨_, rfl⟩, hfr, ⟨.header h, by simp [Ne.symm hq0, hh]⟩, by simp [Ne.symm hq0], ?_⟩
    rw [← hnext] at hq0 ⊢
    have hzero : Function.update (Function.update s.page l.next (some (default : IndexPage K V))) 0
        (some (.header ⟨l.next + 1, h.rootPageID, none⟩)) l.next = some .zero := by simp [hq0]; rfl
    have hothers : ∀ x : Nat, x ≠ 0 → x ≠ l.next → Function.update (Function.update s.page l.next (some default)) 0
        (some (.header ⟨l.next + 1, h.rootPageID, none⟩)) x = s.page x := fun x h0 hx => by simp [h0, hx]
    refine ⟨rfl, hzero, hothers, ?_, hb.returned hzero hothers
      ⟨⟨l.next + 1, h.rootPageID, none⟩, by simp, ?_, ?_⟩⟩
    · simpa [hq0, Ne.symm hq0] using hpins _ hq0
    · simp [Ledger.returned, Ledger.pages, hfree, hnext]
    · simp [Ledger.returned, hfree, FreeChain]
  · obtain ⟨q, free, hq⟩ := List.exists_cons_of_ne_nil hfree
    have hnext : l.next = q := by simp [Ledger.next, hq]
    rw [hq] at hc
    obtain ⟨hhead, fp, hf, hc⟩ := hc
    have hq0 : q ≠ 0 := hb.ne_zero (.inr (by simp [hq]))
    simp only [newIndexPage, wp_bind, wp_fetchPage, wp_getHeader, wp_unpinPage, wp_pure, setPins_page, hh,
      Option.some.injEq, IndexFilePage.header.injEq, exists_eq_left', hhead, wp_setData, setPage_page,
      setPage_pins, setPins_pins, wp_getFreePage, hf, IndexFilePage.free.injEq]
    refine ⟨⟨_, rfl⟩, ⟨_, rfl⟩, ⟨_, rfl⟩, ⟨.free fp, by simp [hq0, hf]⟩, by simp [Ne.symm hq0], ?_⟩
    rw [← hnext] at hq0 ⊢
    have hzero : Function.update (Function.update s.page 0 (some (.header { h with freePageListHeader := fp.nextFreePageID })))
        l.next (some (.zero : IndexPage K V)) l.next = some .zero := Function.update_self ..
    have hothers : ∀ x : Nat, x ≠ 0 → x ≠ l.next → Function.update (Function.update s.page 0
        (some (.header { h with freePageListHeader := fp.nextFreePageID }))) l.next (some .zero) x = s.page x :=
      fun x h0 hx => by simp [h0, hx]
    refine ⟨rfl, hzero, hothers, ?_, hb.returned hzero hothers
      ⟨{ h with freePageListHeader := fp.nextFreePageID }, by simp [Ne.symm hq0], ?_, ?_⟩⟩
    · simpa [hq0, Ne.symm hq0] using hpins _ hq0
    · rw [hn]
      simp only [Ledger.returned, Ledger.pages, hnext, hq, List.erase_cons_head, List.length_cons]
      omega
    · have hfreed : (l.returned l.next).freed = free := by simp [Ledger.returned, hnext, hq]
      rw [hfreed]
      refine hc.frame fun x hx => hothers x ?_ ?_
      · exact hb.ne_zero (.inr (by simp [hq, hx]))
      · have hnd := (List.nodup_append.1 hb.nodup).2.1
        rw [hq] at hnd
        rw [hnext]
        rintro rfl
        exact (List.nodup_cons.1 hnd).1 hx

/-- What `deleteIndexPage` leaves. -/
structure Settled (s : IndexStore K V) (l : Ledger) (k : Nat) (b : Bool) (s' : IndexStore K V) : Prop where
  accepts : b = true ↔ k ∈ l.live ∧ s.pins k = 0
  refused : b = false → s'.page = s.page
  others : ∀ x, x ≠ 0 → x ≠ k → s'.page x = s.page x
  pins : s'.pins = s.pins
  books : Books s' (l.deleted k b)

theorem Books.refuse {s' : IndexStore K V} {k : Nat} (hb : Books s l) (hno : ¬ (k ∈ l.live ∧ s.pins k = 0))
    (hpage : s'.page = s.page) (hpins : s'.pins = s.pins) : Settled s l k false s' := by
  refine ⟨by simpa using hno, fun _ => hpage, fun x _ _ => by rw [hpage], hpins, ?_⟩
  refine hb.frame (fun x _ => by rw [hpage]) fun x hx => ?_
  rw [hpage]
  exact hb.live x hx

theorem Books.take {s' : IndexStore K V} {h : IndexFileHeader} {k : Nat} (hb : Books s l) (hk : k ∈ l.live)
    (hn : h.nextPageID = l.pages) (hc : FreeChain s h.freePageListHeader l.freed)
    (hheader : s'.page 0 = some (.header { h with freePageListHeader := some k }))
    (hfree : s'.page k = some (.free ⟨h.freePageListHeader⟩)) (hothers : ∀ x, x ≠ 0 → x ≠ k → s'.page x = s.page x) :
    Books s' (l.deleted k true) := by
  have hperm : (l.live.erase k ++ k :: l.freed).Perm (l.live ++ l.freed) :=
    List.perm_middle.trans ((List.perm_cons_erase hk).symm.append_right l.freed)
  have hpages : (l.deleted k true).pages = l.pages := by
    have hlen := hperm.length_eq
    simp only [List.length_append, List.length_cons] at hlen
    simp only [Ledger.deleted, Ledger.pages, if_true, List.length_cons]
    omega
  have hnd := (List.nodup_append.1 hb.nodup).1
  refine ⟨⟨_, hheader, by rw [hpages]; exact hn, rfl, _, hfree, ?_⟩, ?_, fun x hx => ?_, fun x hx => ?_⟩
  · refine hc.frame fun x hx => hothers x (hb.ne_zero (.inr hx)) ?_
    rintro rfl
    exact hb.disjoint hk hx
  · rw [hpages]
    exact hperm.trans hb.perm
  · have hx : x ∈ l.live.erase k := hx
    have hne : x ≠ k := (hnd.mem_erase_iff.1 hx).1
    have hx := List.mem_of_mem_erase hx
    rw [hothers x (hb.ne_zero (.inl hx)) hne]
    exact hb.live x hx
  · rw [hpages] at hx
    have hb' := (hb.mem_iff k).1 (.inl hk)
    rw [hothers x (by omega) (by omega)]
    exact hb.fresh x hx

theorem deleteIndexPage_books (hb : Books s l) (k : Nat) : wp exec (deleteIndexPage k) (Settled s l k) s := by
  obtain ⟨h, hh, hn, hc⟩ := hb.header
  by_cases hrange : k < 1 ∨ l.pages ≤ k
  · have hnot : k ∉ l.live := fun hl => by
      have := (hb.mem_iff k).1 (.inl hl)
      omega
    simp only [deleteIndexPage, wp_bind, wp_fetchPage, wp_getHeader, setPins_page, setPins_pins, hh, hn,
      Option.some.injEq, IndexFilePage.header.injEq, exists_eq_left', wp_ite, if_pos hrange, Function.update_self,
      wp_unpinPage, wp_pure]
    exact ⟨⟨_, rfl⟩, Nat.succ_pos _, hb.refuse (fun hc => hnot hc.1) rfl (by simp)⟩
  obtain ⟨p, hp⟩ := hb.page (show k < l.pages by omega)
  have hk0 : k ≠ 0 := by omega
  have hpins : Function.update (Function.update (Function.update (Function.update s.pins 0 (s.pins 0 + 1)) k
      (s.pins k + 1)) k (s.pins k)) 0 (s.pins 0) = s.pins := by
    funext x
    rcases eq_or_ne x 0 with rfl | h0
    · simp
    · rcases eq_or_ne x k with rfl | hx <;> simp [*]
  have hrefuse : ¬ (k ∈ l.live ∧ s.pins k = 0) → wp exec (do unpinPage k false; unpinPage 0 false; pure false)
      (Settled s l k) ((s.setPins 0 (s.pins 0 + 1)).setPins k (s.pins k + 1)) := by
    intro hno
    simp only [wp_bind, wp_unpinPage, wp_pure, setPins_pins, Function.update_self]
    refine ⟨Nat.succ_pos _, by simp [Ne.symm hk0], hb.refuse hno rfl ?_⟩
    simpa [Ne.symm hk0] using hpins
  have hrange' : ¬ (k < 1 ∨ h.nextPageID ≤ k) := by rwa [hn]
  simp only [deleteIndexPage, wp_bind, wp_fetchPage, wp_getHeader, setPins_page, setPins_pins, hh, Option.some.injEq,
    IndexFilePage.header.injEq, exists_eq_left', wp_ite, if_neg hrange', wp_getPinCount, hp, Function.update_self,
    Function.update_of_ne hk0, wp_getData]
  refine ⟨⟨_, rfl⟩, ⟨_, rfl⟩, ⟨_, rfl⟩, ?_⟩
  by_cases hpin : s.pins k = 0
  · rw [if_neg (by omega)]
    by_cases hl : k ∈ l.live
    · -- a live page is none of the free ones
      obtain ⟨q, hq, hnf⟩ := hb.live k hl
      obtain rfl : p = q := Option.some.inj (hp.symm.trans hq)
      have hdelete : wp exec (do
          setData k (.free { nextFreePageID := h.freePageListHeader })
          setData 0 (.header { h with freePageListHeader := some k })
          unpinPage k true
          unpinPage 0 true
          pure true) (Settled s l k) ((s.setPins 0 (s.pins 0 + 1)).setPins k (s.pins k + 1)) := by
        simp only [wp_bind, wp_setData, wp_unpinPage, wp_pure, setPage_page, setPage_pins, setPins_page, setPins_pins]
        have hothers : ∀ x : Nat, x ≠ 0 → x ≠ k → Function.update (Function.update s.page k
            (some (.free { nextFreePageID := h.freePageListHeader }))) 0
            (some (.header { h with freePageListHeader := some k })) x = s.page x := fun x h0 hx => by simp [h0, hx]
        refine ⟨⟨p, hp⟩, ⟨.header h, by simp [Ne.symm hk0, hh]⟩, by simp, by simp [Ne.symm hk0], ?_⟩
        refine ⟨iff_of_true rfl ⟨hl, hpin⟩, (fun h => by cases h), hothers, ?_, ?_⟩
        · simpa [Ne.symm hk0] using hpins
        · refine hb.take hl hn hc ?_ ?_ hothers
          · simp
          · simp [hk0]
      cases p with
      | free f => exact absurd rfl (hnf f)
      | _ => exact hdelete
    · obtain ⟨f, hf⟩ := hb.free_page (((hb.mem_iff k).2 ⟨by omega, by omega⟩).resolve_left hl)
      obtain rfl : p = .free f := Option.some.inj (hp.symm.trans hf)
      exact hrefuse fun hc => hl hc.1
  · rw [if_pos (by omega)]
    simpa only [wp_bind] using hrefuse fun hc => hpin hc.2

end Calls

/-! ## The system -/

/-- A pin that a client holds. A client has to save a page it got as new or wrote. -/
structure ClientPin where
  page : Nat
  wrote : Bool

structure FileState (K V : Type) where
  pool : IndexCache K V
  pins : List ClientPin
  ledger : Ledger

inductive FileCall (K V : Type)
  | newIndexPage
  | deleteIndexPage (k : Nat)
  | fetchIndexPage (k : Nat)
  | unpinIndexPage (k : Nat) (isDirty : Bool)
  | write (k : Nat) (p : IndexPage K V)

namespace FileState

/-- A new index file, and no clients. -/
def Init (x : FileState K V) : Prop :=
  ∃ leafMax internalMax, x = ⟨Cache.ofFiles (BPlusTree.create leafMax internalMax), [], ⟨[], []⟩⟩

/-- One call. A client fetches a page of the file, unpins what it pinned, as dirty if it
has to save it, and writes live pages through its pins. -/
inductive Step (choose : Nat → List PageIDType) (x : FileState K V) : FileCall K V → FileState K V → Prop
  | newIndexPage {q pool} : run (Cache.exec choose) MisakiDB.newIndexPage x.pool = some (q, pool) →
      Step choose x .newIndexPage ⟨pool, ⟨q, true⟩ :: x.pins, x.ledger.returned q⟩
  | deleteIndexPage {k b pool} : run (Cache.exec choose) (MisakiDB.deleteIndexPage k) x.pool = some (b, pool) →
      Step choose x (.deleteIndexPage k) ⟨pool, x.pins, x.ledger.deleted k b⟩
  | fetchIndexPage {k pool} : k < x.ledger.pages → run (Cache.exec choose) (fetchPage k) x.pool = some ((), pool) →
      Step choose x (.fetchIndexPage k) ⟨pool, ⟨k, false⟩ :: x.pins, x.ledger⟩
  | unpinIndexPage {pre p post d pool} : x.pins = pre ++ p :: post → (p.wrote = true → d = true) →
      run (Cache.exec choose) (unpinPage p.page d) x.pool = some ((), pool) →
      Step choose x (.unpinIndexPage p.page d) ⟨pool, pre ++ post, x.ledger⟩
  | write {pre p post data pool} : x.pins = pre ++ p :: post → p.page ∈ x.ledger.live → (∀ f, data ≠ .free f) →
      run (Cache.exec choose) (setData p.page data) x.pool = some ((), pool) →
      Step choose x (.write p.page data) ⟨pool, pre ++ { p with wrote := true } :: post, x.ledger⟩

end FileState

/-! ## What holds between calls -/

def heldPages (pins : List ClientPin) : Multiset Nat := (pins.map ClientPin.page : List Nat)

def unsavedPages (pins : List ClientPin) : Multiset Nat := ((pins.filter ClientPin.wrote).map ClientPin.page : List Nat)

section Pins
variable {pins pre post : List ClientPin} {p : ClientPin}

theorem count_held_cons (k : Nat) : (heldPages (p :: pins)).count k =
    Function.update (fun k => (heldPages pins).count k) p.page ((heldPages pins).count p.page + 1) k := by
  show (p.page ::ₘ heldPages pins).count k = _
  by_cases hk : k = p.page
  · subst hk
    simp
  · simp [hk]

theorem heldPages_middle : heldPages (pre ++ p :: post) = p.page ::ₘ heldPages (pre ++ post) :=
  Multiset.coe_eq_coe.2 (List.perm_middle.map ClientPin.page)

theorem unsavedPages_middle : unsavedPages (pre ++ p :: post) =
    if p.wrote then p.page ::ₘ unsavedPages (pre ++ post) else unsavedPages (pre ++ post) := by
  have hperm : ((pre ++ p :: post).filter ClientPin.wrote).Perm ((p :: (pre ++ post)).filter ClientPin.wrote) :=
    List.perm_middle.filter _
  have h := Multiset.coe_eq_coe.2 (hperm.map ClientPin.page)
  rw [List.filter_cons] at h
  by_cases hw : p.wrote = true
  · rw [if_pos hw] at h ⊢
    exact h
  · rw [if_neg hw] at h ⊢
    exact h

theorem unsavedPages_subset : unsavedPages pins ⊆ heldPages pins := by
  intro k hk
  obtain ⟨p, hp, rfl⟩ := List.mem_map.1 hk
  exact List.mem_map.2 ⟨p, List.mem_of_mem_filter hp, rfl⟩

theorem mem_heldPages {k : Nat} : k ∈ heldPages pins ↔ ∃ p ∈ pins, p.page = k := List.mem_map

end Pins

/-- The pool serves the pages the ledger is about, and knows who has pinned what. -/
structure Serves (t : TrackedTree K V) (x : FileState K V) : Prop where
  matched : Matches noneSpared t x.pool
  tidy : Tidy noneSpared (fun _ _ => True) (heldPages x.pins) (unsavedPages x.pins) t
  pins : ∀ k, t.store.pins k = (heldPages x.pins).count k
  books : Books t.store x.ledger

namespace Serves

variable {t : TrackedTree K V} {x x' : FileState K V} {choose : Nat → List PageIDType}

/-- A program with a result on the store, that is followed by the rules of `Tidy`. -/
theorem follow {α : Type} {p : IndexProg K V α} {Q : α → IndexStore K V → Prop} {P' U' : α → Multiset Nat}
    (h : Serves t x) (choose : Nat → List PageIDType) (hp : wp exec p Q t.store)
    (htidy : wlp tracked p (fun a t' => Tidy noneSpared (fun _ _ => True) (P' a) (U' a) t') t) :
    ∃ a pool t', run (Cache.exec choose) p x.pool = some (a, pool) ∧ Matches noneSpared t' pool ∧
      Tidy noneSpared (fun _ _ => True) (P' a) (U' a) t' ∧ Q a t'.store := by
  obtain ⟨a, s', hrun, hq⟩ := hp
  obtain ⟨t', pool, hpool, hm, ht, rfl⟩ := Tidy.on_cache htidy h.matched hrun choose
  exact ⟨a, pool, t', hpool, hm, ht, hq⟩

theorem new (h : Serves t x) (choose : Nat → List PageIDType) :
    ∃ q pool t', run (Cache.exec choose) newIndexPage x.pool = some (q, pool) ∧ Given t.store x.ledger q t'.store ∧
      Serves t' ⟨pool, ⟨q, true⟩ :: x.pins, x.ledger.returned q⟩ := by
  obtain ⟨q, pool, t', hrun, hm, ht, hg⟩ := h.follow choose (newIndexPage_books h.books)
    (h.tidy.newPage fun _ _ _ => trivial)
  refine ⟨q, pool, t', hrun, hg, hm, ht, fun k => ?_, hg.books⟩
  rw [hg.pins, count_held_cons, funext h.pins]

theorem delete (h : Serves t x) (choose : Nat → List PageIDType) (k : Nat) :
    ∃ b pool t', run (Cache.exec choose) (deleteIndexPage k) x.pool = some (b, pool) ∧
      Settled t.store x.ledger k b t'.store ∧ Serves t' ⟨pool, x.pins, x.ledger.deleted k b⟩ := by
  obtain ⟨b, pool, t', hrun, hm, ht, hs⟩ := h.follow choose (deleteIndexPage_books h.books k)
    (h.tidy.deletePage (fun _ _ _ => trivial) unsavedPages_subset k)
  exact ⟨b, pool, t', hrun, hs, hm, ht, fun y => by rw [hs.pins]; exact h.pins y, hs.books⟩

theorem fetch (h : Serves t x) (choose : Nat → List PageIDType) {k : Nat} (hk : k < x.ledger.pages) :
    ∃ pool t', run (Cache.exec choose) (fetchPage k) x.pool = some ((), pool) ∧
      Serves t' ⟨pool, ⟨k, false⟩ :: x.pins, x.ledger⟩ := by
  have hwp : wp exec (fetchPage k) (fun _ s' => s' = t.store.setPins k (t.store.pins k + 1)) t.store :=
    wp_fetchPage.2 ⟨h.books.page hk, rfl⟩
  obtain ⟨⟨⟩, pool, t', hrun, hm, ht, hs⟩ := h.follow choose hwp (h.tidy.fetch k)
  refine ⟨pool, t', hrun, hm, ht, fun y => ?_, ?_⟩
  · rw [hs, count_held_cons, setPins_pins, funext h.pins]
  · rw [hs]
    exact h.books.frame (fun _ _ => rfl) h.books.live

theorem unpin (h : Serves t x) (choose : Nat → List PageIDType) {pre post : List ClientPin} {p : ClientPin} {d : Bool}
    (hp : x.pins = pre ++ p :: post) (hd : p.wrote = true → d = true) :
    ∃ pool t', run (Cache.exec choose) (unpinPage p.page d) x.pool = some ((), pool) ∧
      Serves t' ⟨pool, pre ++ post, x.ledger⟩ := by
  have htidy := h.tidy
  have hpins := h.pins
  rw [hp, heldPages_middle] at htidy hpins
  have hpos : 0 < t.store.pins p.page := by
    rw [hpins, Multiset.count_cons_self]
    exact Nat.succ_pos _
  have hwp : wp exec (unpinPage p.page d) (fun _ s' => s' = t.store.setPins p.page (t.store.pins p.page - 1)) t.store :=
    wp_unpinPage.2 ⟨hpos, rfl⟩
  have hwlp : wlp tracked (unpinPage p.page d) (fun _ t' => Tidy noneSpared (fun _ _ => True) (heldPages (pre ++ post))
      (unsavedPages (pre ++ post)) t') t := by
    rw [unsavedPages_middle] at htidy
    cases hw : p.wrote
    · rw [hw, if_neg (by simp)] at htidy
      cases d
      · exact htidy.unpin_clean fun hk => unsavedPages_subset hk
      · exact (htidy.mono (Multiset.subset_cons _ p.page)).unpin
    · rw [hw, if_pos rfl] at htidy
      rw [hd hw]
      exact htidy.unpin
  obtain ⟨⟨⟩, pool, t', hrun, hm, ht, hs⟩ := h.follow choose hwp hwlp
  refine ⟨pool, t', hrun, hm, ht, fun y => ?_, ?_⟩
  · rw [hs]
    by_cases hy : y = p.page
    · subst hy
      simp [hpins]
    · simp [hy, hpins]
  · rw [hs]
    exact h.books.frame (fun _ _ => rfl) h.books.live

theorem write (h : Serves t x) (choose : Nat → List PageIDType) {pre post : List ClientPin} {p : ClientPin}
    {data : IndexPage K V} (hp : x.pins = pre ++ p :: post) (hl : p.page ∈ x.ledger.live) (hf : ∀ f, data ≠ .free f) :
    ∃ pool t', run (Cache.exec choose) (setData p.page data) x.pool = some ((), pool) ∧
      Serves t' ⟨pool, pre ++ { p with wrote := true } :: post, x.ledger⟩ := by
  have htidy := h.tidy
  rw [hp, heldPages_middle, unsavedPages_middle] at htidy
  obtain ⟨q, hq, -⟩ := h.books.live _ hl
  have hwp : wp exec (setData p.page data) (fun _ s' => s' = t.store.setPage p.page data) t.store :=
    wp_setData.2 ⟨⟨q, hq⟩, rfl⟩
  have hwlp : wlp tracked (setData p.page data) (fun _ t' => Tidy noneSpared (fun _ _ => True)
      (heldPages (pre ++ { p with wrote := true } :: post))
      (unsavedPages (pre ++ { p with wrote := true } :: post)) t') t := by
    rw [heldPages_middle, unsavedPages_middle, if_pos rfl]
    refine wlp_conseq (htidy.set (Multiset.mem_cons_self _ _) trivial) fun _ _ ht => ?_
    cases hw : p.wrote
    · rw [hw, if_neg (by simp)] at ht
      exact ht
    · rw [hw, if_pos rfl] at ht
      exact ht.written_twice (Multiset.mem_cons_self _ _)
  obtain ⟨⟨⟩, pool, t', hrun, hm, ht, hs⟩ := h.follow choose hwp hwlp
  refine ⟨pool, t', hrun, hm, ht, fun y => ?_, ?_⟩
  · rw [hs, setPage_pins, h.pins, hp, heldPages_middle, heldPages_middle]
  · rw [hs]
    refine h.books.frame (fun y hy => ?_) fun y hy => ?_
    · have hne : y ≠ p.page := fun he => hy (he ▸ hl)
      simp [hne]
    · by_cases hne : y = p.page
      · exact ⟨data, by simp [hne], hf⟩
      · obtain ⟨r, hr, hnf⟩ := h.books.live y hy
        exact ⟨r, by simp [hne, hr], hnf⟩

/-- One step. -/
theorem step {c : FileCall K V} (h : Serves t x) (hstep : x.Step choose c x') : ∃ t', Serves t' x' := by
  cases hstep with
  | newIndexPage hrun =>
    obtain ⟨q, pool, t', hrun', -, h'⟩ := h.new choose
    rw [hrun, Option.some.injEq, Prod.mk.injEq] at hrun'
    obtain ⟨rfl, rfl⟩ := hrun'
    exact ⟨t', h'⟩
  | deleteIndexPage hrun =>
    obtain ⟨b, pool, t', hrun', -, h'⟩ := h.delete choose _
    rw [hrun, Option.some.injEq, Prod.mk.injEq] at hrun'
    obtain ⟨rfl, rfl⟩ := hrun'
    exact ⟨t', h'⟩
  | fetchIndexPage hk hrun =>
    obtain ⟨pool, t', hrun', h'⟩ := h.fetch choose hk
    rw [hrun, Option.some.injEq, Prod.mk.injEq] at hrun'
    obtain ⟨-, rfl⟩ := hrun'
    exact ⟨t', h'⟩
  | unpinIndexPage hp hd hrun =>
    obtain ⟨pool, t', hrun', h'⟩ := h.unpin choose hp hd
    rw [hrun, Option.some.injEq, Prod.mk.injEq] at hrun'
    obtain ⟨-, rfl⟩ := hrun'
    exact ⟨t', h'⟩
  | write hp hl hf hrun =>
    obtain ⟨pool, t', hrun', h'⟩ := h.write choose hp hl hf
    rw [hrun, Option.some.injEq, Prod.mk.injEq] at hrun'
    obtain ⟨-, rfl⟩ := hrun'
    exact ⟨t', h'⟩

end Serves

theorem init_serves {x : FileState K V} (h : x.Init) : ∃ t, Serves t x := by
  obtain ⟨leafMax, internalMax, rfl⟩ := h
  have hnew : ∀ k : Nat, k ≠ 0 → (BPlusTree.create leafMax internalMax : IndexStore K V).page k = none := fun k hk => by
    simp [BPlusTree.create, hk]
  refine ⟨Tracked.ofStore (BPlusTree.create leafMax internalMax), .ofFiles fun _ => rfl,
    ⟨rfl, fun k => ?_, fun k hk => ?_,
    fun k hk => ?_, fun _ _ _ => trivial⟩, fun _ => rfl, ⟨⟨IndexFileHeader.init, rfl, rfl, rfl⟩, .refl _, by simp, ?_⟩⟩
  · exact Nat.zero_le _
  · cases hk
  · cases hk
  · intro k hk
    have hpos : 1 ≤ k := hk
    exact hnew k (by omega)

theorem serves_reach {choose : Nat → List PageIDType} {x : FileState K V}
    (h : Reach FileState.Init (FileState.Step choose) x) : ∃ t, Serves t x :=
  h.inv (fun _ => init_serves) fun _ _ _ ⟨_, hs⟩ hstep => hs.step hstep

/-! ## Every page is in one place -/

/-- The header knows the number of pages and the first free page; from there the links
go through the freed pages, last freed first, none of them twice and none of them live. -/
structure Listed (s : IndexStore K V) (l : Ledger) : Prop where
  chain : ∃ h, s.page 0 = some (.header h) ∧ h.nextPageID = l.pages ∧ FreeChain s h.freePageListHeader l.freed
  once : (l.live ++ l.freed).Nodup
  header : 0 ∉ l.live ++ l.freed

theorem Books.listed {s : IndexStore K V} {l : Ledger} (h : Books s l) : Listed s l :=
  ⟨h.header, h.nodup, fun h0 => h.ne_zero (List.mem_append.1 h0) rfl⟩

/-- In every run, whatever the pool evicts: a new page is the one freed last, or extends
the file if none is free, is not live, and is zeroed; a deletion takes exactly the live
pages that nobody has pinned, and else leaves every page as it is. -/
theorem pages_in_one_place {choose : Nat → List PageIDType} {x : FileState K V}
    (h : Reach FileState.Init (FileState.Step choose) x) :
    Listed x.pool.store x.ledger ∧
    (∃ pool, run (Cache.exec choose) newIndexPage x.pool = some (x.ledger.next, pool) ∧
      x.ledger.next ≠ 0 ∧ x.ledger.next ∉ x.ledger.live ∧ pool.store.page x.ledger.next = some .zero ∧
      Listed pool.store (x.ledger.returned x.ledger.next)) ∧
    ∀ k, ∃ b pool, run (Cache.exec choose) (deleteIndexPage k) x.pool = some (b, pool) ∧
      (b = true ↔ k ∈ x.ledger.live ∧ ∀ p ∈ x.pins, p.page ≠ k) ∧ (b = false → pool.store.page = x.pool.store.page) ∧
      Listed pool.store (x.ledger.deleted k b) := by
  obtain ⟨t, hs⟩ := serves_reach h
  have hstore := hs.matched.store
  refine ⟨?_, ?_, fun k => ?_⟩
  · rw [hstore]
    exact hs.books.listed
  · obtain ⟨q, pool, t', hrun, hg, hs'⟩ := hs.new choose
    have hq := hg.next
    subst hq
    refine ⟨pool, hrun, hs.books.next_ne_zero, hs.books.next_not_live, ?_, ?_⟩
    · rw [hs'.matched.store]
      exact hg.zero
    · rw [hs'.matched.store]
      exact hg.books.listed
  · obtain ⟨b, pool, t', hrun, hd, hs'⟩ := hs.delete choose k
    refine ⟨b, pool, hrun, ?_, fun hb => ?_, ?_⟩
    · rw [hd.accepts, hs.pins, Multiset.count_eq_zero, mem_heldPages]
      simp
    · rw [hs'.matched.store, hstore]
      exact hd.refused hb
    · rw [hs'.matched.store]
      exact hd.books.listed

/-! ## Every call can be made -/

/-- Some run ends with these pins and this ledger. -/
def Reached (K V : Type) (choose : Nat → List PageIDType) (pins : List ClientPin) (l : Ledger) : Prop :=
  ∃ pool : IndexCache K V, Reach FileState.Init (FileState.Step choose) ⟨pool, pins, l⟩

section Made
variable {choose : Nat → List PageIDType} {pins post : List ClientPin} {l : Ledger} {p : ClientPin}

theorem Reached.new (h : Reached K V choose pins l) :
    Reached K V choose (⟨l.next, true⟩ :: pins) (l.returned l.next) := by
  obtain ⟨_, h⟩ := h
  obtain ⟨t, hs⟩ := serves_reach h
  obtain ⟨q, pool, t', hrun, hg, -⟩ := hs.new choose
  obtain rfl := hg.next
  exact ⟨pool, h.next (.newIndexPage hrun)⟩

theorem Reached.delete (h : Reached K V choose pins l) (k : Nat) (hk : k ∈ l.live) (hpins : ∀ p ∈ pins, p.page ≠ k) :
    Reached K V choose pins (l.deleted k true) := by
  obtain ⟨_, h⟩ := h
  obtain ⟨t, hs⟩ := serves_reach h
  obtain ⟨b, pool, t', hrun, hd, -⟩ := hs.delete choose k
  have hcount : (heldPages pins).count k = 0 := by
    rw [Multiset.count_eq_zero, mem_heldPages]
    rintro ⟨p, hp, hpk⟩
    exact hpins p hp hpk
  obtain rfl : b = true := hd.accepts.2 ⟨hk, (hs.pins k).trans hcount⟩
  exact ⟨pool, h.next (.deleteIndexPage hrun)⟩

theorem Reached.unpin (pre : List ClientPin) (h : Reached K V choose (pre ++ p :: post) l) :
    Reached K V choose (pre ++ post) l := by
  obtain ⟨_, h⟩ := h
  obtain ⟨t, hs⟩ := serves_reach h
  obtain ⟨pool, t', hrun, -⟩ := hs.unpin choose (d := true) rfl fun _ => rfl
  exact ⟨pool, h.next (.unpinIndexPage rfl (fun _ => rfl) hrun)⟩

theorem Reached.write (pre : List ClientPin) (h : Reached K V choose (pre ++ p :: post) l) (data : IndexPage K V)
    (hl : p.page ∈ l.live) (hf : ∀ f, data ≠ .free f) :
    Reached K V choose (pre ++ { p with wrote := true } :: post) l := by
  obtain ⟨_, h⟩ := h
  obtain ⟨t, hs⟩ := serves_reach h
  obtain ⟨pool, t', hrun, -⟩ := hs.write choose rfl hl hf
  exact ⟨pool, h.next (.write rfl hl hf hrun)⟩

end Made

/-- Three pages are given out, one is written, two are freed, the last one freed is given
out again and stays pinned. -/
theorem pages_in_one_place_reused : ∃ x : FileState Nat Nat, Reach FileState.Init (FileState.Step fun _ => [0, 3]) x ∧
    x.ledger = ⟨[2, 3], [1]⟩ ∧ x.pins = [⟨2, true⟩] ∧ Listed x.pool.store ⟨[2, 3], [1]⟩ ∧
    (∃ pool, run (Cache.exec fun _ => [0, 3]) newIndexPage x.pool = some (1, pool) ∧ pool.store.page 1 = some .zero ∧
      Listed pool.store ⟨[1, 2, 3], []⟩) ∧
    (∃ pool, run (Cache.exec fun _ => [0, 3]) (deleteIndexPage 3) x.pool = some (true, pool) ∧
      Listed pool.store ⟨[2], [3, 1]⟩) ∧
    ∀ k, k ≠ 3 → ∃ pool, run (Cache.exec fun _ => [0, 3]) (deleteIndexPage k) x.pool = some (false, pool) ∧
      pool.store.page = x.pool.store.page ∧ Listed pool.store ⟨[2, 3], [1]⟩ := by
  have hstart : Reach FileState.Init (FileState.Step fun _ => [0, 3])
      ⟨Cache.ofFiles (BPlusTree.create 2 4 : IndexStore Nat Nat), [], ⟨[], []⟩⟩ := .start ⟨2, 4, rfl⟩
  have h : Reached Nat Nat (fun _ => [0, 3]) [⟨1, true⟩] ⟨[1], []⟩ := Reached.new ⟨_, hstart⟩
  have h : Reached Nat Nat (fun _ => [0, 3]) [⟨2, true⟩, ⟨1, true⟩] ⟨[2, 1], []⟩ := h.new
  have h : Reached Nat Nat (fun _ => [0, 3]) [⟨3, true⟩, ⟨2, true⟩, ⟨1, true⟩] ⟨[3, 2, 1], []⟩ := h.new
  have h : Reached Nat Nat (fun _ => [0, 3]) [⟨3, true⟩, ⟨2, true⟩, ⟨1, true⟩] ⟨[3, 2, 1], []⟩ :=
    Reached.write [] h (.leaf ⟨3, none, 2, none, [(5, 50)]⟩) (by decide) fun f hf => by cases hf
  have h : Reached Nat Nat (fun _ => [0, 3]) [⟨2, true⟩, ⟨1, true⟩] ⟨[3, 2, 1], []⟩ := Reached.unpin [] h
  have h : Reached Nat Nat (fun _ => [0, 3]) [⟨1, true⟩] ⟨[3, 2, 1], []⟩ := Reached.unpin [] h
  have h : Reached Nat Nat (fun _ => [0, 3]) [] ⟨[3, 2, 1], []⟩ := Reached.unpin [] h
  have h : Reached Nat Nat (fun _ => [0, 3]) [] ⟨[3, 2], [1]⟩ := h.delete 1 (by decide) (by simp)
  have h : Reached Nat Nat (fun _ => [0, 3]) [] ⟨[3], [2, 1]⟩ := h.delete 2 (by decide) (by simp)
  obtain ⟨pool, h⟩ : Reached Nat Nat (fun _ => [0, 3]) [⟨2, true⟩] ⟨[2, 3], [1]⟩ := h.new
  obtain ⟨hlisted, ⟨pool', hrun, -, -, hzero, hlisted'⟩, hdelete⟩ := pages_in_one_place h
  refine ⟨_, h, rfl, rfl, hlisted, ⟨pool', hrun, hzero, hlisted'⟩, ?_, fun k hk => ?_⟩
  · obtain ⟨b, pool, hrun, hb, -, hl⟩ := hdelete 3
    obtain rfl : b = true := hb.2 ⟨by simp, by simp⟩
    exact ⟨pool, hrun, hl⟩
  · obtain ⟨b, pool, hrun, hb, hsame, hl⟩ := hdelete k
    have hno : b = false := by
      rw [← Bool.not_eq_true, hb]
      rintro ⟨hlive, hpin⟩
      rcases List.mem_cons.1 hlive with rfl | hlive
      · exact hpin ⟨2, true⟩ List.mem_cons_self rfl
      · exact hk (List.mem_singleton.1 hlive)
    subst hno
    exact ⟨pool, hrun, hsame rfl, hl⟩

end MisakiDB
