import MisakiDB.Index.ArrayTree
import MisakiDB.Lib.Simulation
/-!
# No access leaves its page

The tree on its arrays does what the tree on lists does. `Sized` bounds the size of every
page: below its maximum, but for one page that is at it while it waits to be split. Each
function keeps the bound, and under it every access lies in its page and every assertion on
an index holds wherever the list has such an entry.
-/

namespace MisakiDB.ArrayTree

open Prog PageStore

variable {K V α β α' β' : Type}

/-! ## The lists of a store -/

/-- The pages as `f` reads them. -/
def view (f : PageIDType → ArrayPage K V → IndexPage K V) (t : ArrayStore K V) : IndexStore K V :=
  { page := fun k => (t.page k).map (f k), pins := t.pins, latch := t.latch, member := t.member }

def asLists (_ : PageIDType) (pg : ArrayPage K V) : IndexPage K V := pg.toIndexPage

/-- The program on arrays ends whenever the one on lists does, in the same store. -/
def Refines (f : PageIDType → ArrayPage K V → IndexPage K V) (p : IndexProg K V α) (q : ArrayProg K V β)
    (Q : α → β → ArrayStore K V → Prop) (t : ArrayStore K V) : Prop :=
  Simulates PageStore.exec PageStore.exec p q (fun a s' b t' => s' = view f t' ∧ Q a b t') (view f t) t

section Rules
variable {f g : PageIDType → ArrayPage K V → IndexPage K V} {t : ArrayStore K V} {k : PageIDType}

namespace Refines
variable {p : IndexProg K V α} {q : ArrayProg K V β} {Q Q' : α → β → ArrayStore K V → Prop}

theorem pure {a : α} {b : β} (hq : Q a b t) : Refines f (Pure.pure a) (Pure.pure b) Q t := Simulates.pure ⟨rfl, hq⟩

theorem fail : Refines f Prog.fail q Q t := Simulates.fail

theorem seq {R : α' → β' → ArrayStore K V → Prop} {p' : IndexProg K V α'} {q' : ArrayProg K V β'}
    {c : α' → IndexProg K V α} {d : β' → ArrayProg K V β} (hp : Refines f p' q' R t)
    (hc : ∀ a b t', R a b t' → Refines f (c a) (d b) Q t') : Refines f (p' >>= c) (q' >>= d) Q t := by
  apply Simulates.seq hp
  rintro a s' b t' ⟨rfl, hr⟩
  exact hc a b t' hr

theorem seq_and {A B : α' → β' → ArrayStore K V → Prop} {p' : IndexProg K V α'} {q' : ArrayProg K V β'}
    {c : α' → IndexProg K V α} {d : β' → ArrayProg K V β} (hp : Refines f p' q' (fun a b t' => A a b t' ∧ B a b t') t)
    (hc : ∀ a b t', A a b t' → B a b t' → Refines f (c a) (d b) Q t') : Refines f (p' >>= c) (q' >>= d) Q t :=
  hp.seq fun a b t' hr => hc a b t' hr.1 hr.2

theorem conseq (hp : Refines f p q Q t) (hq : ∀ a b t', Q a b t' → Q' a b t') : Refines f p q Q' t :=
  Simulates.conseq hp fun a _ b t' hr => ⟨hr.1, hq a b t' hr.2⟩

theorem ite {c c' : Prop} [Decidable c] [Decidable c'] {p1 p2 : IndexProg K V α} {q1 q2 : ArrayProg K V β} (hc : c ↔ c')
    (h1 : c → Refines f p1 q1 Q t) (h2 : ¬ c → Refines f p2 q2 Q t) :
    Refines f (if c then p1 else p2) (if c' then q1 else q2) Q t :=
  Simulates.ite hc h1 h2

end Refines

theorem view_page (t : ArrayStore K V) (k : PageIDType) : (view f t).page k = (t.page k).map (f k) := rfl

theorem refines_fetchPage (k : PageIDType) :
    Refines f (fetchPage k) (fetchPage k) (fun _ _ t' => t'.page = t.page ∧ t'.member = t.member) t := by
  refine wlp_fetchPage.2 fun p hp => wp_fetchPage.2 ⟨?_, rfl, rfl, rfl⟩
  obtain ⟨pg, hpg, -⟩ := Option.map_eq_some_iff.1 hp
  exact ⟨pg, hpg⟩

theorem refines_unpinPage (k : PageIDType) (d : Bool) :
    Refines f (unpinPage k d) (unpinPage k d) (fun _ _ t' => t'.page = t.page ∧ t'.member = t.member) t :=
  wlp_unpinPage.2 fun hp => wp_unpinPage.2 ⟨hp, rfl, rfl, rfl⟩

theorem refines_getData (k : PageIDType) :
    Refines f (getData k) (getData k) (fun p pg t' => t' = t ∧ t.page k = some pg ∧ p = f k pg) t := by
  refine wlp_getData.2 fun p hp => ?_
  obtain ⟨pg, hpg, rfl⟩ := Option.map_eq_some_iff.1 hp
  exact wp_getData.2 ⟨pg, hpg, rfl, rfl, hpg, rfl⟩

theorem refines_getPinCount (k : PageIDType) :
    Refines f (getPinCount k) (getPinCount k) (fun n n' t' => t' = t ∧ n = n') t := by
  intro n s' hr
  obtain ⟨⟨p, hp⟩, rfl, rfl⟩ := wp_getPinCount.1 (run_eq_iff.1 hr)
  obtain ⟨pg, hpg, -⟩ := Option.map_eq_some_iff.1 hp
  exact wp_getPinCount.2 ⟨⟨pg, hpg⟩, rfl, rfl, rfl⟩

theorem refines_getMember : Refines f getMember getMember (fun m m' t' => t' = t ∧ m = m' ∧ m = t.member) t :=
  wlp_getMember.2 (wp_getMember.2 ⟨rfl, rfl, rfl, rfl⟩)

theorem refines_setMember (r : BPlusTree) : Refines f (setMember r) (setMember r) (fun _ _ t' => t' = t.withMember r) t :=
  wlp_setMember.2 (wp_setMember.2 ⟨rfl, rfl⟩)

/-- A write, after which the page may be read in another way. -/
theorem simulates_setData {p : IndexPage K V} {pg : ArrayPage K V} (hfg : ∀ x, x ≠ k → f x = g x) (hp : g k pg = p) :
    Simulates PageStore.exec PageStore.exec (setData k p) (setData k pg)
      (fun _ s' _ t' => s' = view g t' ∧ t' = t.setPage k pg) (view f t) t := by
  refine wlp_setData.2 fun q hq => wp_setData.2 ⟨?_, ?_, rfl⟩
  · obtain ⟨pg', hpg', -⟩ := Option.map_eq_some_iff.1 hq
    exact ⟨pg', hpg'⟩
  · refine congrArg (fun page => PageStore.mk page t.pins t.latch t.member) (funext fun x => ?_)
    by_cases hx : x = k
    · subst hx
      simp [hp]
    · simp [view, hx, hfg x hx]

theorem refines_setData {p : IndexPage K V} {pg : ArrayPage K V} (hp : f k pg = p) :
    Refines f (setData k p) (setData k pg) (fun _ _ t' => t' = t.setPage k pg) t :=
  simulates_setData (fun _ _ => rfl) hp

/-- An access that fails only where the list has no such entry. -/
theorem refines_require {o : Option α} {o' : Option β} {c : β → α} (ho : o'.map c = o) :
    Refines f (require o) (require o') (fun a b t' => t' = t ∧ a = c b ∧ o' = some b) t := by
  subst ho
  cases o' with
  | none => exact Refines.fail
  | some b => exact Refines.pure ⟨rfl, rfl, rfl⟩

theorem refines_require_eq {o o' : Option α} (ho : ∀ a, o = some a → o' = some a) :
    Refines f (require o) (require o') (fun a b t' => t' = t ∧ a = b ∧ o = some a) t := by
  cases o with
  | none => exact Refines.fail
  | some a =>
    rw [ho a rfl]
    exact Refines.pure ⟨rfl, rfl, rfl⟩

/-- An access that the list does not ask for. -/
theorem simulates_some {o' : Option β'} {b : β'} {p : IndexProg K V α} {d : β' → ArrayProg K V β} {s : IndexStore K V}
    {Q : α → IndexStore K V → β → ArrayStore K V → Prop} (ho : o' = some b)
    (h : Simulates PageStore.exec PageStore.exec p (d b) Q s t) :
    Simulates PageStore.exec PageStore.exec p (require o' >>= d) Q s t := by
  subst ho
  exact h

theorem refines_some {o' : Option β'} {b : β'} {p : IndexProg K V α} {d : β' → ArrayProg K V β}
    {Q : α → β → ArrayStore K V → Prop} (ho : o' = some b) (h : Refines f p (d b) Q t) :
    Refines f p (require o' >>= d) Q t := simulates_some ho h

end Rules

/-! ## Pages read as lists -/

section Reads
variable {t : ArrayStore K V}

theorem refines_getHeader :
    Refines asLists getHeader (getHeader : ArrayProg K V _) (fun a b t' => t' = t ∧ a = b) t := by
  apply (refines_getData 0).seq
  rintro p pg t ⟨rfl, -, rfl⟩
  cases pg with
  | header h => exact Refines.pure ⟨rfl, rfl⟩
  | _ => exact Refines.fail

theorem refines_getFreePage (k : PageIDType) :
    Refines asLists (getFreePage k) (getFreePage k : ArrayProg K V _) (fun a b t' => t' = t ∧ a = b) t := by
  apply (refines_getData k).seq
  rintro p pg t ⟨rfl, -, rfl⟩
  cases pg with
  | free f => exact Refines.pure ⟨rfl, rfl⟩
  | _ => exact Refines.fail

theorem refines_getLeaf (k : PageIDType) : Refines asLists (getLeaf k) (getLeaf k)
    (fun a b t' => t' = t ∧ a = b.toLeafPage ∧ t.page k = some (.leaf b)) t := by
  apply (refines_getData k).seq
  rintro p pg t ⟨rfl, hpg, rfl⟩
  cases pg with
  | leaf p => exact Refines.pure ⟨rfl, rfl, hpg⟩
  | _ => exact Refines.fail

theorem refines_getInternal (k : PageIDType) : Refines asLists (getInternal k) (getInternal k)
    (fun a b t' => t' = t ∧ a = b.toInternalPage ∧ t.page k = some (.internal b)) t := by
  apply (refines_getData k).seq
  rintro p pg t ⟨rfl, hpg, rfl⟩
  cases pg with
  | internal p => exact Refines.pure ⟨rfl, rfl, hpg⟩
  | _ => exact Refines.fail

theorem node_toIndexPage (pg : ArrayPage K V) : pg.toIndexPage.node = pg.node := by
  cases pg with
  | leaf p =>
    simp [ArrayPage.toIndexPage, IndexFilePage.node, TreePage.base, BPlusTreeLeafPage.toLeafPage,
      BPlusTreeLeafPage.getSize]
  | internal p =>
    simp [ArrayPage.toIndexPage, IndexFilePage.node, TreePage.base, BPlusTreeInternalPage.toInternalPage,
      BPlusTreeInternalPage.getSize]
  | _ => rfl

theorem refines_getNode (k : PageIDType) : Refines asLists (getNode k) (getNode k)
    (fun a b t' => t' = t ∧ a = b ∧ (t.page k).bind IndexFilePage.node = some b) t := by
  apply (refines_getData k).seq
  rintro p pg t ⟨rfl, hpg, rfl⟩
  apply (refines_require_eq fun a ha => (node_toIndexPage pg).symm.trans ha).conseq
  rintro a b t ⟨rfl, rfl, ha⟩
  refine ⟨rfl, rfl, ?_⟩
  rw [hpg, ← ha]
  exact (node_toIndexPage pg).symm

end Reads

/-! ## Sizes -/

/-- The maxima of a tree whose full pages fit. -/
structure Limits where
  leafMax : Nat
  internalMax : Nat
  two_le : 2 ≤ leafMax
  leaf_fits : leafMax ≤ LEAF_PAGE_SIZE
  internal_fits : max internalMax 4 ≤ INTERNAL_CAPACITY

def Limits.Fits (m : Limits) (room : Nat) : ArrayPage K V → Prop
  | .leaf p => p.maxSize = m.leafMax ∧ p.getSize < m.leafMax + room
  | .internal p => p.maxSize = max m.internalMax 4 ∧ p.getSize < max m.internalMax 4 + room
  | _ => True

theorem Limits.fits_leaf {m : Limits} {r : Nat} {p : BPlusTreeLeafPage K V} {l : LeafPage K V} (hp : p.toLeafPage = l)
    (hmax : l.maxSize = m.leafMax) (hsize : l.array.length < m.leafMax + r) : m.Fits r (.leaf p) := by
  subst hp
  rw [BPlusTreeLeafPage.toLeafPage_getSize] at hsize
  exact ⟨hmax, hsize⟩

theorem Limits.fits_internal {m : Limits} {r : Nat} {p : BPlusTreeInternalPage K} {l : InternalPage K}
    (hp : p.toInternalPage = l) (hmax : l.maxSize = max m.internalMax 4)
    (hsize : l.array.length < max m.internalMax 4 + r) : m.Fits r (.internal p : ArrayPage K V) := by
  subst hp
  rw [BPlusTreeInternalPage.toInternalPage_getSize] at hsize
  exact ⟨hmax, hsize⟩

/-- Only the page `full` may be at its maximum. -/
structure Sized (m : Limits) (full : Option PageIDType) (t : ArrayStore K V) : Prop where
  leafMax : t.member.leafMaxSize = m.leafMax
  internalMax : t.member.internalMaxSize = m.internalMax
  pages : ∀ k pg, t.page k = some pg → m.Fits (if full = some k then 1 else 0) pg

variable {m : Limits} {full : Option PageIDType} {t t' : ArrayStore K V} {k : PageIDType}

theorem Limits.Fits.mono {r r' : Nat} {pg : ArrayPage K V} (h : m.Fits r pg) (hr : r ≤ r') : m.Fits r' pg := by
  cases pg with
  | leaf p => exact ⟨h.1, h.2.trans_le (Nat.add_le_add_left hr _)⟩
  | internal p => exact ⟨h.1, h.2.trans_le (Nat.add_le_add_left hr _)⟩
  | _ => trivial

theorem Limits.Fits.setParentPageID {r : Nat} {pg : ArrayPage K V} (h : m.Fits r pg) (parent : Option PageIDType) :
    m.Fits r (pg.setParentPageID parent) := by
  cases pg <;> exact h

namespace Sized

theorem same (h : Sized m full t) (hp : t'.page = t.page) (hm : t'.member = t.member) : Sized m full t' := by
  refine ⟨by rw [hm]; exact h.leafMax, by rw [hm]; exact h.internalMax, fun k pg hk => ?_⟩
  rw [hp] at hk
  exact h.pages k pg hk

theorem room {pg : ArrayPage K V} (h : Sized m full t) (hk : t.page k = some pg) : m.Fits 1 pg := by
  apply (h.pages k pg hk).mono
  split
  · exact le_rfl
  · exact Nat.zero_le 1

/-- A page is written, and then at most `full'` is at its maximum. -/
theorem write {full' : Option PageIDType} {pg : ArrayPage K V} (h : Sized m full t)
    (hfull : full = some k ∨ full = full')
    (hpg : m.Fits (if full' = some k then 1 else 0) pg) : Sized m full' (t.setPage k pg) := by
  refine ⟨h.leafMax, h.internalMax, fun x q hx => ?_⟩
  rw [setPage_page] at hx
  by_cases hxk : x = k
  · subst hxk
    obtain rfl : pg = q := by simpa using hx
    exact hpg
  · rw [Function.update_of_ne hxk] at hx
    apply (h.pages x q hx).mono
    rcases hfull with rfl | rfl
    · rw [if_neg fun hc => hxk (Option.some.inj hc).symm]
      exact Nat.zero_le _
    · exact le_rfl

/-- A page below its maximum is written. -/
theorem setPage (h : Sized m full t) (pg : ArrayPage K V) (hpg : m.Fits 0 pg) : Sized m full (t.setPage k pg) :=
  h.write (.inr rfl) (hpg.mono (Nat.zero_le _))

/-- The full page has been split. -/
theorem halve (h : Sized m (some k) t) (pg : ArrayPage K V) (hpg : m.Fits 0 pg) : Sized m none (t.setPage k pg) :=
  h.write (.inl rfl) (hpg.mono (Nat.zero_le _))

/-- A page may reach its maximum. -/
theorem fill (h : Sized m none t) (pg : ArrayPage K V) (hpg : m.Fits 1 pg) : Sized m (some k) (t.setPage k pg) := by
  have h : Sized m (some k) t := ⟨h.leafMax, h.internalMax, fun x q hx => (h.pages x q hx).mono (by simp)⟩
  exact h.write (.inr rfl) (by rwa [if_pos rfl])

section Sizes
variable {p : BPlusTreeLeafPage K V} {q : BPlusTreeInternalPage K}

theorem leaf_le (h : Sized m full t) (hk : t.page k = some (.leaf p)) :
    p.maxSize = m.leafMax ∧ p.getSize ≤ m.leafMax := by
  obtain ⟨hmax, hsize⟩ := h.room hk
  exact ⟨hmax, by omega⟩

theorem leaf_lt (h : Sized m none t) (hk : t.page k = some (.leaf p)) : p.maxSize = m.leafMax ∧ p.getSize < m.leafMax :=
  h.pages k _ hk

theorem leaf_fits (h : Sized m full t) (hk : t.page k = some (.leaf p)) : p.getSize ≤ LEAF_PAGE_SIZE :=
  (h.leaf_le hk).2.trans m.leaf_fits

theorem internal_le (h : Sized m full t) (hk : t.page k = some (.internal q)) :
    q.maxSize = max m.internalMax 4 ∧ q.getSize ≤ max m.internalMax 4 := by
  obtain ⟨hmax, hsize⟩ := h.room hk
  exact ⟨hmax, by omega⟩

theorem internal_lt (h : Sized m none t) (hk : t.page k = some (.internal q)) :
    q.maxSize = max m.internalMax 4 ∧ q.getSize < max m.internalMax 4 := h.pages k _ hk

theorem internal_fits (h : Sized m full t) (hk : t.page k = some (.internal q)) : q.getSize ≤ INTERNAL_CAPACITY :=
  (h.internal_le hk).2.trans m.internal_fits

end Sizes

/-! ## One step -/

theorem fetchPage (h : Sized m full t) (k : PageIDType) :
    Refines asLists (fetchPage k) (fetchPage k) (fun _ _ t' => Sized m full t' ∧ t'.page = t.page) t :=
  (refines_fetchPage k).conseq fun _ _ _ ⟨hp, hm⟩ => ⟨h.same hp hm, hp⟩

theorem unpinPage (h : Sized m full t) (k : PageIDType) (d : Bool) :
    Refines asLists (unpinPage k d) (unpinPage k d) (fun _ _ t' => Sized m full t' ∧ t'.page = t.page) t :=
  (refines_unpinPage k d).conseq fun _ _ _ ⟨hp, hm⟩ => ⟨h.same hp hm, hp⟩

/-- A write of a page below its maximum. -/
theorem setData (h : Sized m full t) {p : IndexPage K V} {pg : ArrayPage K V} (hp : pg.toIndexPage = p)
    (hpg : m.Fits 0 pg) :
    Refines asLists (setData k p) (setData k pg) (fun _ _ t' => Sized m full t' ∧ t' = t.setPage k pg) t := by
  apply (refines_setData hp).conseq
  rintro _ _ t' rfl
  exact ⟨h.setPage _ hpg, rfl⟩

theorem setParentPageID (h : Sized m full t) (k : PageIDType) (parent : Option PageIDType) :
    Refines asLists (MisakiDB.setParentPageID k parent) (MisakiDB.setParentPageID k parent)
    (fun _ _ t' => Sized m full t') t := by
  apply (refines_getData k).seq
  rintro p pg t ⟨rfl, hpg, rfl⟩
  refine (refines_setData ?_).conseq ?_
  · cases pg <;> rfl
  · rintro _ _ t' rfl
    exact h.write (.inr rfl) ((h.pages k pg hpg).setParentPageID parent)

theorem appendNewPage (h : Sized m full t) (k : PageIDType) :
    Refines asLists (appendNewPage k) (appendNewPage k) (fun _ _ t' => Sized m full t') t := by
  refine wlp_appendNewPage.2 fun hp => wp_appendNewPage.2 ⟨Option.map_eq_none_iff.1 hp, ?_, ?_⟩
  · refine congrArg (fun page => PageStore.mk page _ t.latch t.member) (funext fun x => ?_)
    by_cases hx : x = k
    · subst hx
      simp
      rfl
    · simp [view, hx]
  · exact (h.setPage (k := k) default trivial).same rfl rfl

theorem newIndexPage (h : Sized m full t) :
    Refines asLists MisakiDB.newIndexPage newIndexPage (fun a b t' => a = b ∧ Sized m full t') t := by
  refine (h.fetchPage 0).seq_and fun _ _ t h _ => ?_
  apply refines_getHeader.seq
  rintro hd _ t ⟨rfl, rfl⟩
  have hend : ∀ (x : PageIDType) (t : ArrayStore K V), Sized m full t →
      Refines asLists (do MisakiDB.unpinPage 0 true; Pure.pure x) (do MisakiDB.unpinPage 0 true; Pure.pure x)
        (fun a b t' => a = b ∧ Sized m full t') t := by
    intro x t h
    refine (h.unpinPage 0 true).seq_and fun _ _ t h _ => ?_
    exact Refines.pure ⟨rfl, h⟩
  rcases hd.freePageListHeader with _ | free
  · refine (h.appendNewPage _).seq fun _ _ t h => ?_
    refine Refines.seq_and (h.setData rfl trivial) fun _ _ t h _ => ?_
    exact hend _ t h
  · refine (h.fetchPage free).seq_and fun _ _ t h _ => ?_
    apply (refines_getFreePage free).seq
    rintro f _ t ⟨rfl, rfl⟩
    refine Refines.seq_and (h.setData rfl trivial) fun _ _ t h _ => ?_
    refine Refines.seq_and (h.setData rfl trivial) fun _ _ t h _ => ?_
    exact hend _ t h

theorem deleteIndexPage (h : Sized m full t) (x : PageIDType) :
    Refines asLists (MisakiDB.deleteIndexPage x) (deleteIndexPage x) (fun a b t' => a = b ∧ Sized m full t') t := by
  refine (h.fetchPage 0).seq_and fun _ _ t h _ => ?_
  apply refines_getHeader.seq
  rintro hd _ t ⟨rfl, rfl⟩
  have hend : ∀ (t : ArrayStore K V), Sized m full t →
      Refines asLists (do MisakiDB.unpinPage x false; MisakiDB.unpinPage 0 false; Pure.pure false)
        (do MisakiDB.unpinPage x false; MisakiDB.unpinPage 0 false; Pure.pure false) (fun a b t' => a = b ∧
          Sized m full t') t := by
    intro t h
    refine (h.unpinPage x false).seq_and fun _ _ t h _ => ?_
    refine (h.unpinPage 0 false).seq_and fun _ _ t h _ => ?_
    exact Refines.pure ⟨rfl, h⟩
  refine Refines.ite Iff.rfl (fun _ => ?_) fun _ => ?_
  · refine (h.unpinPage 0 false).seq_and fun _ _ t h _ => ?_
    exact Refines.pure ⟨rfl, h⟩
  refine (h.fetchPage x).seq_and fun _ _ t h _ => ?_
  apply (refines_getPinCount x).seq
  rintro n _ t ⟨rfl, rfl⟩
  refine Refines.ite Iff.rfl (fun _ => hend t h) fun _ => ?_
  apply (refines_getData x).seq
  rintro p pg t ⟨rfl, -, rfl⟩
  have hfree : Refines asLists (do
        MisakiDB.setData x (.free { nextFreePageID := hd.freePageListHeader })
        MisakiDB.setData 0 (.header { hd with freePageListHeader := some x })
        MisakiDB.unpinPage x true
        MisakiDB.unpinPage 0 true
        Pure.pure true) (do
        MisakiDB.setData x (.free { nextFreePageID := hd.freePageListHeader })
        MisakiDB.setData 0 (.header { hd with freePageListHeader := some x })
        MisakiDB.unpinPage x true
        MisakiDB.unpinPage 0 true
        Pure.pure true) (fun a b t' => a = b ∧ Sized m full t') t := by
    refine Refines.seq_and (h.setData rfl trivial) fun _ _ t h _ => ?_
    refine Refines.seq_and (h.setData rfl trivial) fun _ _ t h _ => ?_
    refine (h.unpinPage x true).seq_and fun _ _ t h _ => ?_
    refine (h.unpinPage 0 true).seq_and fun _ _ t h _ => ?_
    exact Refines.pure ⟨rfl, h⟩
  cases pg with
  | free f => exact hend t h
  | _ => exact hfree

/-- A leaf is written that a function of its class has made. -/
theorem setLeaf {o : Option (BPlusTreeLeafPage K V)} {l : LeafPage K V} {c : Unit → IndexProg K V α}
    {d : Unit → ArrayProg K V β} {Q : α → β → ArrayStore K V → Prop} (h : Sized m full t)
    (ho : o.map BPlusTreeLeafPage.toLeafPage = some l) (hmax : l.maxSize = m.leafMax)
    (hsize : l.array.length < m.leafMax)
    (hc : ∀ p t', p.toLeafPage = l → t' = t.setPage k (.leaf p) → Sized m full t' →
    Refines asLists (c ()) (d ()) Q t') :
    Refines asLists (MisakiDB.setLeaf k l >>= c) (require o >>= fun p => MisakiDB.setLeaf k p >>= d) Q t := by
  obtain ⟨p, hp, hpl⟩ := Option.map_eq_some_iff.1 ho
  apply refines_some hp
  refine Refines.seq (h.setData (congrArg IndexFilePage.leaf hpl) (Limits.fits_leaf hpl hmax hsize)) ?_
  rintro _ _ t' ⟨h, ht⟩
  exact hc p t' hpl ht h

theorem setInternal {o : Option (BPlusTreeInternalPage K)} {l : InternalPage K} {c : Unit → IndexProg K V α}
    {d : BPlusTreeInternalPage K → Unit → ArrayProg K V β} {Q : α → β → ArrayStore K V → Prop} (h : Sized m full t)
    (ho : o.map BPlusTreeInternalPage.toInternalPage = some l) (hmax : l.maxSize = max m.internalMax 4)
    (hsize : l.array.length < max m.internalMax 4)
    (hc : ∀ p t', p.toInternalPage = l → t' = t.setPage k (.internal p) → Sized m full t' →
      Refines asLists (c ()) (d p ()) Q t') :
    Refines asLists (MisakiDB.setInternal k l >>= c) (require o >>= fun p => MisakiDB.setInternal k p >>= d p) Q t := by
  obtain ⟨p, hp, hpl⟩ := Option.map_eq_some_iff.1 ho
  apply refines_some hp
  refine Refines.seq (h.setData (congrArg IndexFilePage.internal hpl) (Limits.fits_internal hpl hmax hsize)) ?_
  rintro _ _ t' ⟨h, ht⟩
  exact hc p t' hpl ht h

/-! ## Moving entries -/

section Leaves
variable {this recipient : PageIDType}

theorem leaf_moveHalfTo (h : Sized m (some this) t) (hr : ∀ r, t.page recipient = some (.leaf r) → r.getSize = 0) :
    Refines asLists (LeafPage.moveHalfTo this recipient) (BPlusTreeLeafPage.moveHalfTo this recipient)
      (fun _ _ t' => Sized m none t') t := by
  apply (refines_getLeaf this).seq
  rintro _ p t ⟨rfl, rfl, hp⟩
  obtain ⟨hmax, hsize⟩ := h.leaf_le hp
  have h2 := m.two_le
  have hfit := m.leaf_fits
  have hs : p.toLeafPage.getSize = p.getSize := BPlusTreeLeafPage.toLeafPage_getSize
  have hlen : (p.toLeafPage.array.drop ((p.getSize + 1) / 2)).length = p.getSize - (p.getSize + 1) / 2 := by
    rw [List.length_drop, BPlusTreeLeafPage.toLeafPage_getSize]
  have hitems : p.itemsFrom ((p.getSize + 1) / 2) (p.getSize - (p.getSize + 1) / 2) =
      some (p.toLeafPage.array.drop ((p.getSize + 1) / 2)) := by
    rw [BPlusTreeLeafPage.itemsFrom_toLeafPage (h.leaf_fits hp) (by omega), List.take_of_length_le hlen.le]
  simp only [hs]
  apply refines_some hitems
  apply (refines_getLeaf recipient).seq
  rintro _ r t ⟨rfl, rfl, hrec⟩
  have hr0 := hr r hrec
  refine h.setLeaf (BPlusTreeLeafPage.copyNFrom_toLeafPage (by omega)) (h.leaf_le hrec).1 ?_ ?_
  · rw [LeafPage.copyNFrom, List.length_append, BPlusTreeLeafPage.toLeafPage_getSize]
    omega
  rintro r' t - - h
  apply (refines_setData (congrArg IndexFilePage.leaf (BPlusTreeLeafPage.setSize_toLeafPage (by omega)))).conseq
  rintro _ _ t rfl
  exact h.halve _ ⟨hmax, show (p.getSize + 1) / 2 < m.leafMax + 0 by omega⟩

theorem leaf_moveAllTo (h : Sized m none t) (hsum : ∀ p r, t.page this = some (.leaf p) →
    t.page recipient = some (.leaf r) →
      p.getSize + r.getSize < m.leafMax) :
    Refines asLists (LeafPage.moveAllTo this recipient) (BPlusTreeLeafPage.moveAllTo this recipient)
      (fun _ _ t' => Sized m none t') t := by
  have hfit := m.leaf_fits
  apply (refines_getLeaf this).seq
  rintro _ p t ⟨rfl, rfl, hp⟩
  have hitems : p.itemsFrom 0 p.getSize = some p.toLeafPage.array := by
    rw [BPlusTreeLeafPage.itemsFrom_toLeafPage (h.leaf_fits hp) (Nat.zero_add _).le, List.drop_zero,
      List.take_of_length_le BPlusTreeLeafPage.toLeafPage_getSize.le]
  apply refines_some hitems
  apply (refines_getLeaf recipient).seq
  rintro _ r t ⟨rfl, rfl, hr⟩
  have hlen := hsum p r hp hr
  have hps : p.toLeafPage.array.length = p.getSize := BPlusTreeLeafPage.toLeafPage_getSize
  refine h.setLeaf (BPlusTreeLeafPage.copyNFrom_toLeafPage (by omega)) (h.leaf_le hr).1 ?_ ?_
  · rw [LeafPage.copyNFrom, List.length_append, BPlusTreeLeafPage.toLeafPage_getSize]
    omega
  have hmax := (h.leaf_le hp).1
  rintro r' t - - h
  have hempty : m.Fits 0 (.leaf (p.setSize 0)) := ⟨hmax, show 0 < m.leafMax + 0 by omega⟩
  refine Refines.seq
    (h.setData (congrArg IndexFilePage.leaf (BPlusTreeLeafPage.setSize_toLeafPage (Nat.zero_le _))) hempty) ?_
  rintro _ _ t ⟨h, -⟩
  apply (refines_getLeaf recipient).seq
  rintro _ r t ⟨rfl, rfl, hr⟩
  obtain ⟨hmax', hsize'⟩ := h.leaf_lt hr
  have hfits : m.Fits 0 (.leaf { r with nextPageID := p.nextPageID }) := ⟨hmax', hsize'⟩
  exact Refines.conseq (h.setData rfl hfits) fun _ _ _ hr => hr.1

theorem leaf_moveFirstToEndOf (h : Sized m none t)
    (hroom : ∀ r, t.page recipient = some (.leaf r) → r.getSize + 1 < m.leafMax) :
    Refines asLists (LeafPage.moveFirstToEndOf this recipient) (BPlusTreeLeafPage.moveFirstToEndOf this recipient)
      (fun _ _ t' => Sized m none t') t := by
  have hfit := m.leaf_fits
  apply (refines_getLeaf this).seq
  rintro _ p t ⟨rfl, rfl, hp⟩
  obtain ⟨hmax, hsize⟩ := h.leaf_lt hp
  apply (refines_require_eq fun e he => BPlusTreeLeafPage.first_toLeafPage (h.leaf_fits hp) he).seq
  rintro first _ t ⟨rfl, rfl, hfirst⟩
  have hpos : 0 < p.getSize := by
    rw [← BPlusTreeLeafPage.toLeafPage_getSize]
    exact List.length_pos_of_mem (List.mem_of_head? hfirst)
  apply (refines_getLeaf recipient).seq
  rintro _ r t ⟨rfl, rfl, hr⟩
  have hlen := hroom r hr
  refine h.setLeaf (BPlusTreeLeafPage.copyLastFrom_toLeafPage (by omega) first) (h.leaf_le hr).1 ?_ ?_
  · rw [LeafPage.copyLastFrom, List.length_append, BPlusTreeLeafPage.toLeafPage_getSize]
    exact hlen
  rintro r' t - - h
  obtain ⟨p', hp', hpl⟩ := Option.map_eq_some_iff.1 (BPlusTreeLeafPage.dropFirst_toLeafPage (by omega) hpos)
  apply refines_some hp'
  refine Refines.conseq (h.setData (congrArg IndexFilePage.leaf hpl) (Limits.fits_leaf hpl hmax ?_)) fun _ _ _ hr =>
    hr.1
  rw [List.length_tail, BPlusTreeLeafPage.toLeafPage_getSize]
  omega

theorem leaf_moveLastToFrontOf (h : Sized m none t)
    (hroom : ∀ r, t.page recipient = some (.leaf r) → r.getSize + 1 < m.leafMax) :
    Refines asLists (LeafPage.moveLastToFrontOf this recipient) (BPlusTreeLeafPage.moveLastToFrontOf this recipient)
      (fun _ _ t' => Sized m none t') t := by
  have hfit := m.leaf_fits
  apply (refines_getLeaf this).seq
  rintro _ p t ⟨rfl, rfl, hp⟩
  obtain ⟨hmax, hsize⟩ := h.leaf_lt hp
  apply (refines_require_eq fun e he => BPlusTreeLeafPage.last_toLeafPage (h.leaf_fits hp) he).seq
  rintro last _ t ⟨rfl, rfl, -⟩
  apply (refines_getLeaf recipient).seq
  rintro _ r t ⟨rfl, rfl, hr⟩
  have hlen := hroom r hr
  refine h.setLeaf (BPlusTreeLeafPage.copyFirstFrom_toLeafPage (by omega) last) (h.leaf_le hr).1 ?_ ?_
  · rw [LeafPage.copyFirstFrom, List.length_cons, BPlusTreeLeafPage.toLeafPage_getSize]
    exact hlen
  rintro r' t - - h
  have hdrop : (p.setSize (p.getSize - 1)).toLeafPage = { p.toLeafPage with array := p.toLeafPage.array.dropLast } := by
    rw [BPlusTreeLeafPage.setSize_toLeafPage (Nat.sub_le _ _), LeafPage.setSize, List.dropLast_eq_take,
      BPlusTreeLeafPage.toLeafPage_getSize]
  have hfits : m.Fits 0 (.leaf (p.setSize (p.getSize - 1))) := ⟨hmax, show p.getSize - 1 < m.leafMax + 0 by omega⟩
  exact Refines.conseq (h.setData (congrArg IndexFilePage.leaf hdrop) hfits) fun _ _ _ hr => hr.1

end Leaves

end Sized

/-! ## Moving children -/

/-- The first `i` entries of `this`, where the loop of `copyNFrom` stands. -/
def upTo (this : PageIDType) (i : Nat) (k : PageIDType) : ArrayPage K V → IndexPage K V
  | .internal p => .internal (if k = this then p.toInternalPage.setSize i else p.toInternalPage)
  | pg => pg.toIndexPage

theorem upTo_self (this : PageIDType) (i : Nat) (p : BPlusTreeInternalPage K) :
    upTo this i this (.internal p : ArrayPage K V) = .internal (p.toInternalPage.setSize i) := by simp [upTo]

/-- Only the entries are read in another way. -/
structure Stable (f : PageIDType → ArrayPage K V → IndexPage K V) : Prop where
  parent : ∀ k pg parent, f k (pg.setParentPageID parent) = (f k pg).setParentPageID parent
  internal : ∀ k p, ∃ q : InternalPage K, f k (.internal p) = .internal q ∧ q.pageID = p.pageID

theorem stable_asLists : Stable (asLists : PageIDType → ArrayPage K V → IndexPage K V) :=
  ⟨fun _ pg _ => by cases pg <;> rfl, fun _ p => ⟨p.toInternalPage, rfl, rfl⟩⟩

theorem stable_upTo (this : PageIDType) (i : Nat) :
    Stable (upTo this i : PageIDType → ArrayPage K V → IndexPage K V) := by
  constructor
  · intro k pg parent
    cases pg with
    | internal p =>
      simp only [upTo, IndexFilePage.setParentPageID]
      split <;> rfl
    | _ => rfl
  · intro k p
    refine ⟨_, rfl, ?_⟩
    split <;> rfl

section Adopt
variable {f : PageIDType → ArrayPage K V → IndexPage K V} {this recipient : PageIDType} {r : BPlusTreeInternalPage K}

theorem refines_readInternal {q : InternalPage K} (hr : t.page this = some (.internal r))
    (hq : f this (.internal r) = .internal q) :
    Refines f (getInternal this) (getInternal this) (fun a b t' => t' = t ∧ a = q ∧ b = r) t := by
  apply (refines_getData this).seq
  rintro p pg t ⟨rfl, hpg, rfl⟩
  obtain rfl : .internal r = pg := Option.some.inj (hr.symm.trans hpg)
  rw [hq]
  exact Refines.pure ⟨rfl, rfl, rfl⟩

theorem run_getInternal (hr : t.page this = some (.internal r)) :
    run PageStore.exec (getInternal this) t = some (r, t) := by
  show run PageStore.exec (Prog.perform (PageOp.getData this) >>= _) t = _
  rw [run_bind]
  simp only [Prog.perform, run, PageStore.exec, hr]
  rfl

theorem run_setInternal (hr : t.page this = some (.internal r)) (r' : BPlusTreeInternalPage K) :
    run PageStore.exec (setInternal this r') t = some ((), t.setPage this (.internal r')) := by
  simp [setInternal, MisakiDB.setData, Prog.perform, run, PageStore.exec, hr]

theorem Sized.adopt (hf : Stable f) (h : Sized m full t) (hr : t.page this = some (.internal r)) (child : PageIDType) :
    Refines f (InternalPage.adopt this child) (BPlusTreeInternalPage.adopt this child)
      (fun _ _ t' => Sized m full t' ∧ ∃ r', t'.page this = some (.internal r') ∧ r'.getSize = r.getSize) t := by
  refine (refines_fetchPage child).seq_and fun _ _ t1 hp hm => ?_
  have h := h.same hp hm
  rw [← hp] at hr
  obtain ⟨q, hq, hid⟩ := hf.internal this r
  apply (refines_readInternal hr hq).seq
  rintro _ r t ⟨rfl, rfl, rfl⟩
  rw [hid]
  apply (refines_getData child).seq
  rintro p pg t ⟨rfl, hpg, rfl⟩
  apply Refines.conseq (refines_setData (hf.parent child pg _))
  rintro _ _ t rfl
  refine ⟨h.write (.inr rfl) ((h.pages child pg hpg).setParentPageID _), ?_⟩
  by_cases hc : this = child
  · subst hc
    obtain rfl : .internal r = pg := Option.some.inj (hr.symm.trans hpg)
    exact ⟨{ r with parentPageID := some r.pageID }, Function.update_self .., rfl⟩
  · exact ⟨r, (Function.update_of_ne hc ..).trans hr, rfl⟩

/-- The loop of `copyNFrom`: before entry `i` the list has the first `i` entries. -/
theorem Sized.copyFrom {items : List (K × PageIDType)} {i : Nat} (h : Sized m full t)
    (hr : t.page this = some (.internal r)) (hi : i + items.length = r.getSize) :
    Simulates PageStore.exec PageStore.exec (InternalPage.copyNFrom this items)
    (BPlusTreeInternalPage.copyFrom this items i)
      (fun _ s' _ t' => s' = view asLists t' ∧ Sized m full t') (view (upTo this i) t) t := by
  induction items generalizing i t r with
  | nil =>
    refine Simulates.pure ⟨?_, h⟩
    have hall : r.toInternalPage.setSize i = r.toInternalPage := by
      rw [InternalPage.setSize, List.take_of_length_le]
      rw [BPlusTreeInternalPage.toInternalPage_getSize, ← hi]
      exact le_rfl
    refine congrArg (fun page => PageStore.mk page t.pins t.latch t.member) (funext fun k => ?_)
    rcases hk : t.page k with _ | pg
    · rfl
    · by_cases hkt : k = this
      · subst hkt
        obtain rfl : .internal r = pg := Option.some.inj (hr.symm.trans hk)
        simp [upTo, asLists, ArrayPage.toIndexPage, hall]
      · cases pg <;> simp [upTo, asLists, ArrayPage.toIndexPage, hkt]
  | cons e items ih =>
    have hfit := h.internal_fits hr
    rw [List.length_cons] at hi
    have hi' : i < r.getSize := by omega
    apply Simulates.seq (refines_readInternal hr (upTo_self ..))
    rintro _ _ r t ⟨rfl, rfl, rfl, rfl⟩
    have hset : r.setItem i e = some { r with items := { r.items with array := Function.update r.items.array i e } } := by
      rw [BPlusTreeInternalPage.setItem, BoundedArray.write_eq (hi'.trans_le hfit)]
      rfl
    apply simulates_some hset
    generalize hr'' : ({ r with items := { r.items with array := Function.update r.items.array i e } } :
      BPlusTreeInternalPage K) = r'
    have hsize : r'.getSize = r.getSize := by rw [← hr'']; rfl
    have hmax : r'.maxSize = r.maxSize := by rw [← hr'']
    -- the entry that is written is the next one of the list
    have hshown : upTo this (i + 1) this (.internal r' : ArrayPage K V) =
        .internal ((r.toInternalPage.setSize i).append e) := by
      subst hr''
      rw [upTo_self]
      exact congrArg (fun l => IndexFilePage.internal { r.toInternalPage with array := l })
        (BoundedArray.take_write_entries hi' e)
    have hother : ∀ x, x ≠ this → (upTo this i x : ArrayPage K V → IndexPage K V) = upTo this (i + 1) x := by
      intro x hx
      funext pg
      cases pg <;> simp [upTo, hx]
    apply Simulates.seq (simulates_setData hother hshown)
    rintro _ _ _ t ⟨rfl, rfl⟩
    have hfits : m.Fits (if full = some this then 1 else 0) (.internal r' : ArrayPage K V) := by
      obtain ⟨h1, h2⟩ := h.pages this _ hr
      exact ⟨hmax.trans h1, hsize ▸ h2⟩
    have h := h.write (.inr rfl) hfits
    have hr' : (t.setPage this (.internal r')).page this = some (.internal r') := Function.update_self ..
    apply Simulates.seq (h.adopt (stable_upTo this (i + 1)) hr' e.2)
    rintro _ _ _ t ⟨rfl, h, r2, hr2, hsize2⟩
    apply Simulates.seq (refines_unpinPage e.2 true)
    rintro _ _ _ t1 ⟨rfl, hp, hm⟩
    rw [← hp] at hr2
    exact ih (h.same hp hm) hr2 (by omega)

theorem Sized.copyNFrom {items : List (K × PageIDType)} (h : Sized m full t) (hr : t.page this = some (.internal r))
    (hsize : r.getSize + items.length < max m.internalMax 4) :
    Refines asLists (InternalPage.copyNFrom this items) (BPlusTreeInternalPage.copyNFrom this items)
      (fun _ _ t' => Sized m full t') t := by
  have hmax := (h.internal_le hr).1
  apply Simulates.right (run_getInternal hr)
  apply Simulates.right (run_setInternal hr _)
  have h := h.setPage (k := this) (.internal (r.setSize (r.getSize + items.length))) ⟨hmax, hsize⟩
  have hr' : (t.setPage this (.internal (r.setSize (r.getSize + items.length)))).page this =
      some (.internal (r.setSize (r.getSize + items.length))) := Function.update_self ..
  have hview : view asLists t =
      view (upTo this r.getSize) (t.setPage this (.internal (r.setSize (r.getSize + items.length)))) := by
    refine congrArg (fun page => PageStore.mk page t.pins t.latch t.member) (funext fun k => ?_)
    by_cases hkt : k = this
    · subst hkt
      rw [setPage_page, Function.update_self, hr]
      rw [Option.map_some, Option.map_some, upTo_self]
      exact congrArg (fun l => some (IndexFilePage.internal { r.toInternalPage with array := l }))
        (BoundedArray.take_setSize_entries (Nat.le_add_right _ _)).symm
    · rw [setPage_page, Function.update_of_ne hkt]
      rcases t.page k with _ | pg
      · rfl
      · cases pg <;> simp [upTo, asLists, ArrayPage.toIndexPage, hkt]
  rw [hview]
  exact h.copyFrom hr' rfl

theorem copyNFrom_stuck {e : K × PageIDType} {items : List (K × PageIDType)} {q : ArrayProg K V β}
    {Q : Unit → β → ArrayStore K V → Prop} (hr : ∀ r, t.page this ≠ some (.internal r)) :
    Refines asLists (InternalPage.copyNFrom this (e :: items)) q Q t := by
  refine wlp.seq (Q := fun _ _ => False) ?_ fun _ _ hc => hc.elim
  refine (wlp_bind _ _).2 (wlp_getData.2 fun p hp => ?_)
  obtain ⟨pg, hpg, rfl⟩ := Option.map_eq_some_iff.1 hp
  cases pg with
  | internal r => exact absurd hpg (hr r)
  | _ => exact wlp_fail

/-- A child is adopted, and unpinned by its own id. -/
theorem Sized.adopt_own (h : Sized m full t) (hr : t.page this = some (.internal r)) (child : PageIDType) :
    Refines asLists (do InternalPage.adopt this child; MisakiDB.unpinPage (← getNode child).pageID true)
      (do BPlusTreeInternalPage.adopt this child; MisakiDB.unpinPage (← getNode child).pageID true)
      (fun _ _ t' => Sized m full t') t := by
  refine (h.adopt stable_asLists hr child).seq_and fun _ _ t h _ => ?_
  apply (refines_getNode child).seq
  rintro n _ t ⟨rfl, rfl, -⟩
  exact (h.unpinPage n.pageID true).conseq fun _ _ _ hr => hr.1

theorem Sized.copyLastFrom (h : Sized m full t)
    (hroom : ∀ r, t.page this = some (.internal r) → r.getSize + 1 < max m.internalMax 4) (pair : K × PageIDType) :
    Refines asLists (InternalPage.copyLastFrom this pair) (BPlusTreeInternalPage.copyLastFrom this pair)
      (fun _ _ t' => Sized m full t') t := by
  have hfit := m.internal_fits
  apply (refines_getInternal this).seq
  rintro _ r t ⟨rfl, rfl, hr⟩
  have hlen := hroom r hr
  refine h.setInternal (BPlusTreeInternalPage.append_toInternalPage (by omega)) (h.internal_le hr).1 ?_ ?_
  · rw [InternalPage.append, List.length_append, BPlusTreeInternalPage.toInternalPage_getSize]
    exact hlen
  rintro r' t hr' rfl h
  have hlast : r'.valueAt (r'.getSize - 1) = some pair.2 := by
    rw [BPlusTreeInternalPage.valueAt_toInternalPage (h.internal_fits (Function.update_self ..)),
      ← BPlusTreeInternalPage.toInternalPage_getSize, hr', InternalPage.valueAt, InternalPage.append,
      List.length_append, List.length_singleton, Nat.add_sub_cancel, List.getElem?_concat_length]
    rfl
  apply refines_some hlast
  exact h.adopt_own (Function.update_self ..) pair.2

theorem Sized.copyFirstFrom (h : Sized m full t)
    (hroom : ∀ r, t.page this = some (.internal r) → r.getSize + 1 < max m.internalMax 4) (pair : K × PageIDType) :
    Refines asLists (InternalPage.copyFirstFrom this pair) (BPlusTreeInternalPage.copyFirstFrom this pair)
      (fun _ _ t' => Sized m full t') t := by
  have hfit := m.internal_fits
  apply (refines_getInternal this).seq
  rintro _ r t ⟨rfl, rfl, hr⟩
  have hlen := hroom r hr
  refine h.setInternal (BPlusTreeInternalPage.prepend_toInternalPage (by omega)) (h.internal_le hr).1 ?_ ?_
  · rw [InternalPage.prepend, List.length_cons, BPlusTreeInternalPage.toInternalPage_getSize]
    exact hlen
  rintro r' t hr' rfl h
  have hfirst : r'.valueAt 0 = some pair.2 := by
    rw [BPlusTreeInternalPage.valueAt_toInternalPage (h.internal_fits (Function.update_self ..)), hr']
    rfl
  apply refines_some hfirst
  exact h.adopt_own (Function.update_self ..) pair.2

theorem Sized.internal_moveHalfTo (h : Sized m (some this) t) (hr : t.page recipient = some (.internal r))
    (h0 : r.getSize = 0) :
    Refines asLists (InternalPage.moveHalfTo this recipient) (BPlusTreeInternalPage.moveHalfTo this recipient)
      (fun _ _ t' => Sized m none t') t := by
  apply (refines_getInternal this).seq
  rintro _ p t ⟨rfl, rfl, hp⟩
  obtain ⟨hmax, hsize⟩ := h.internal_le hp
  have hs : p.toInternalPage.getSize = p.getSize := BPlusTreeInternalPage.toInternalPage_getSize
  have hlen : (p.toInternalPage.array.drop ((p.getSize + 1) / 2)).length = p.getSize - (p.getSize + 1) / 2 := by
    rw [List.length_drop, BPlusTreeInternalPage.toInternalPage_getSize]
  have hitems : p.itemsFrom ((p.getSize + 1) / 2) (p.getSize - (p.getSize + 1) / 2) =
      some (p.toInternalPage.array.drop ((p.getSize + 1) / 2)) := by
    rw [BPlusTreeInternalPage.itemsFrom_toInternalPage (h.internal_fits hp) (by omega), List.take_of_length_le hlen.le]
  simp only [hs]
  apply refines_some hitems
  refine (h.copyNFrom hr (by omega)).seq fun _ _ t h => ?_
  have hhalf : (p.setSize ((p.getSize + 1) / 2)).toInternalPage = p.toInternalPage.setSize ((p.getSize + 1) / 2) :=
    BPlusTreeInternalPage.setSize_toInternalPage (by omega)
  apply Refines.conseq (refines_setData (congrArg IndexFilePage.internal hhalf))
  rintro _ _ t rfl
  exact h.halve _ ⟨hmax, show (p.getSize + 1) / 2 < max m.internalMax 4 + 0 by omega⟩

theorem Sized.internal_moveAllTo (h : Sized m none t) (hsum : ∀ p r, t.page this = some (.internal p) →
      t.page recipient = some (.internal r) → p.getSize + r.getSize < max m.internalMax 4) (key : K) :
    Refines asLists (InternalPage.moveAllTo this recipient key) (BPlusTreeInternalPage.moveAllTo this recipient key)
      (fun _ _ t' => Sized m none t') t := by
  apply (refines_getInternal this).seq
  rintro _ p0 t ⟨rfl, rfl, hp0⟩
  obtain ⟨hmax0, hsize0⟩ := h.internal_lt hp0
  apply (refines_require (BPlusTreeInternalPage.setKeyAt_toInternalPage (h.internal_fits hp0) key)).seq
  rintro _ p t ⟨rfl, rfl, hp⟩
  obtain ⟨hmax, hsize, hpos⟩ := BPlusTreeInternalPage.setKeyAt_sizes hp
  have hfits : m.Fits 0 (.internal p : ArrayPage K V) :=
    ⟨hmax.trans hmax0, show p.getSize < max m.internalMax 4 + 0 by omega⟩
  apply Refines.seq (h.setData rfl hfits)
  rintro _ _ t ⟨h, rfl⟩
  have hitems : p.itemsFrom 0 p.getSize = some p.toInternalPage.array := by
    have hcap := m.internal_fits
    rw [BPlusTreeInternalPage.itemsFrom_toInternalPage (by omega) (Nat.zero_add _).le, List.drop_zero,
      List.take_of_length_le BPlusTreeInternalPage.toInternalPage_getSize.le]
  apply refines_some hitems
  have hcopy : Refines asLists (InternalPage.copyNFrom recipient p.toInternalPage.array)
      (BPlusTreeInternalPage.copyNFrom recipient p.toInternalPage.array) (fun _ _ t' => Sized m none t')
      (t.setPage this (.internal p)) := by
    -- the recipient is an internal page, or both programs fail
    by_cases hrec : ∃ r, (t.setPage this (.internal p)).page recipient = some (.internal r)
    · obtain ⟨r, hr⟩ := hrec
      apply h.copyNFrom hr
      rw [BPlusTreeInternalPage.toInternalPage_getSize]
      by_cases hrt : recipient = this
      · subst hrt
        obtain rfl : p = r := by simpa using hr
        have := hsum p0 p0 hp0 hp0
        omega
      · rw [setPage_page, Function.update_of_ne hrt] at hr
        have := hsum p0 r hp0 hr
        omega
    · obtain ⟨e, items, he⟩ := List.exists_cons_of_length_pos (l := p.toInternalPage.array) (by
        rw [BPlusTreeInternalPage.toInternalPage_getSize]
        omega)
      rw [he]
      exact copyNFrom_stuck fun r hr => hrec ⟨r, hr⟩
  refine hcopy.seq fun _ _ t h => ?_
  have hempty : m.Fits 0 (.internal (p.setSize 0) : ArrayPage K V) :=
    ⟨hmax.trans hmax0, show 0 < max m.internalMax 4 + 0 by omega⟩
  refine Refines.conseq (h.setData ?_ hempty) fun _ _ _ hr => hr.1
  exact congrArg IndexFilePage.internal (BPlusTreeInternalPage.setSize_toInternalPage (Nat.zero_le _))

theorem Sized.internal_moveFirstToEndOf (h : Sized m none t)
    (hroom : ∀ r, t.page recipient = some (.internal r) → r.getSize + 1 < max m.internalMax 4) (key : K) :
    Refines asLists (InternalPage.moveFirstToEndOf this recipient key)
      (BPlusTreeInternalPage.moveFirstToEndOf this recipient key) (fun _ _ t' => Sized m none t') t := by
  have hfit := m.internal_fits
  apply (refines_getInternal this).seq
  rintro _ p t ⟨rfl, rfl, hp⟩
  obtain ⟨hmax, hsize⟩ := h.internal_lt hp
  apply (refines_require_eq fun e he => BPlusTreeInternalPage.first_toInternalPage (h.internal_fits hp) he).seq
  rintro first _ t ⟨rfl, rfl, hfirst⟩
  have hpos : 0 < p.getSize := by
    rw [← BPlusTreeInternalPage.toInternalPage_getSize]
    exact List.length_pos_of_mem (List.mem_of_head? hfirst)
  refine (h.copyLastFrom hroom first).seq fun _ _ t h => ?_
  apply (refines_getInternal recipient).seq
  rintro _ r t ⟨rfl, rfl, hr⟩
  obtain ⟨hrmax, hrsize⟩ := h.internal_lt hr
  have hs : r.toInternalPage.getSize = r.getSize := BPlusTreeInternalPage.toInternalPage_getSize
  rw [hs]
  apply (refines_require (BPlusTreeInternalPage.setKeyAt_toInternalPage (h.internal_fits hr) key)).seq
  rintro _ r' t ⟨rfl, rfl, hr'⟩
  obtain ⟨hmax', hsize', -⟩ := BPlusTreeInternalPage.setKeyAt_sizes hr'
  have hfits : m.Fits 0 (.internal r' : ArrayPage K V) :=
    ⟨hmax'.trans hrmax, show r'.getSize < max m.internalMax 4 + 0 by omega⟩
  apply Refines.seq (h.setData rfl hfits)
  rintro _ _ t ⟨h, -⟩
  obtain ⟨p', hp', hpl⟩ := Option.map_eq_some_iff.1 (BPlusTreeInternalPage.dropFirst_toInternalPage (by omega) hpos)
  apply refines_some hp'
  refine Refines.conseq (h.setData (congrArg IndexFilePage.internal hpl) (Limits.fits_internal hpl hmax ?_))
    fun _ _ _ hr => hr.1
  rw [List.length_tail, BPlusTreeInternalPage.toInternalPage_getSize]
  omega

theorem Sized.internal_moveLastToFrontOf (h : Sized m none t)
    (hroom : ∀ r, t.page recipient = some (.internal r) → r.getSize + 1 < max m.internalMax 4) (key : K) :
    Refines asLists (InternalPage.moveLastToFrontOf this recipient key)
      (BPlusTreeInternalPage.moveLastToFrontOf this recipient key) (fun _ _ t' => Sized m none t') t := by
  have hfit := m.internal_fits
  apply (refines_getInternal recipient).seq
  rintro _ r t ⟨rfl, rfl, hr⟩
  have hlen := hroom r hr
  obtain ⟨hrmax, hrsize⟩ := h.internal_lt hr
  apply (refines_require (BPlusTreeInternalPage.setKeyAt_toInternalPage (h.internal_fits hr) key)).seq
  rintro _ r' t ⟨rfl, rfl, hr'⟩
  obtain ⟨hmax', hsize', -⟩ := BPlusTreeInternalPage.setKeyAt_sizes hr'
  have hfits : m.Fits 0 (.internal r' : ArrayPage K V) :=
    ⟨hmax'.trans hrmax, show r'.getSize < max m.internalMax 4 + 0 by omega⟩
  apply Refines.seq (h.setData rfl hfits)
  rintro _ _ t ⟨h, rfl⟩
  have hroom' : ∀ q, (t.setPage recipient (.internal r')).page recipient = some (.internal q) →
      q.getSize + 1 < max m.internalMax 4 := by
    intro q hq
    obtain rfl : r' = q := by simpa using hq
    omega
  generalize t.setPage recipient (.internal r') = t at h hroom'
  apply (refines_getInternal this).seq
  rintro _ p t ⟨rfl, rfl, hp⟩
  obtain ⟨hmax, hsize⟩ := h.internal_lt hp
  apply (refines_require_eq fun e he => BPlusTreeInternalPage.last_toInternalPage (h.internal_fits hp) he).seq
  rintro last _ t ⟨rfl, rfl, -⟩
  refine (h.copyFirstFrom hroom' last).seq fun _ _ t h => ?_
  have hdrop : (p.setSize (p.getSize - 1)).toInternalPage =
      { p.toInternalPage with array := p.toInternalPage.array.dropLast } := by
    rw [BPlusTreeInternalPage.setSize_toInternalPage (Nat.sub_le _ _), InternalPage.setSize, List.dropLast_eq_take,
      BPlusTreeInternalPage.toInternalPage_getSize]
  have hfits : m.Fits 0 (.internal (p.setSize (p.getSize - 1)) : ArrayPage K V) :=
    ⟨hmax, show p.getSize - 1 < max m.internalMax 4 + 0 by omega⟩
  exact Refines.conseq (h.setData (congrArg IndexFilePage.internal hdrop) hfits) fun _ _ _ hr => hr.1

end Adopt

/-! ## The tree -/

section Tree
namespace Sized

theorem updateRootPageID (h : Sized m full t) :
    Refines asLists BPlusTree.updateRootPageID BPlusTree.updateRootPageID (fun _ _ t' => Sized m full t') t := by
  refine (h.fetchPage 0).seq_and fun _ _ t h _ => ?_
  apply refines_getHeader.seq
  rintro hd _ t ⟨rfl, rfl⟩
  apply refines_getMember.seq
  rintro r _ t ⟨rfl, rfl, -⟩
  refine Refines.seq_and (h.setData rfl trivial) fun _ _ t h _ => ?_
  exact (h.unpinPage 0 true).conseq fun _ _ _ hr => hr.1

theorem setRootPageID (h : Sized m full t) (root : Option PageIDType) :
    Refines asLists (BPlusTree.setRootPageID root) (BPlusTree.setRootPageID root)
    (fun _ _ t' => Sized m full t') t := by
  apply refines_getMember.seq
  rintro r _ t ⟨rfl, rfl, rfl⟩
  apply (refines_setMember _).conseq
  rintro _ _ t rfl
  exact ⟨h.leafMax, h.internalMax, h.pages⟩

variable [LinearOrder K]

theorem descend (h : Sized m none t) (key : K) (leftMost : Bool) (fuel : Nat) (page : PageIDType) :
    Refines asLists (BPlusTree.descend key leftMost fuel page) (BPlusTree.descend key leftMost fuel page)
      (fun a b t' => a = b ∧ Sized m none t') t := by
  induction fuel generalizing t page with
  | zero => exact Refines.fail
  | succ fuel ih =>
    unfold BPlusTree.descend
    apply (refines_getNode page).seq
    rintro n _ t ⟨rfl, rfl, -⟩
    refine Refines.ite Iff.rfl (fun _ => Refines.pure ⟨rfl, h⟩) fun _ => ?_
    apply (refines_getInternal page).seq
    rintro _ p t ⟨rfl, rfl, hp⟩
    have hcap := h.internal_fits hp
    have hchild : (if leftMost then p.valueAt 0 else p.lookup key) =
        if leftMost then p.toInternalPage.valueAt 0 else p.toInternalPage.lookup key := by
      rw [BPlusTreeInternalPage.valueAt_toInternalPage hcap, BPlusTreeInternalPage.lookup_toInternalPage hcap]
    apply (refines_require_eq fun a ha => hchild.trans ha).seq
    rintro child _ t ⟨rfl, rfl, -⟩
    refine (h.unpinPage n.pageID false).seq_and fun _ _ t h _ => ?_
    refine (h.fetchPage child).seq_and fun _ _ t h _ => ?_
    exact ih h child

theorem findLeafPage (h : Sized m none t) (fuel : Nat) (key : K) (leftMost : Bool) :
    Refines asLists (BPlusTree.findLeafPage fuel key leftMost) (BPlusTree.findLeafPage fuel key leftMost)
      (fun a b t' => a = b ∧ Sized m none t') t := by
  apply refines_getMember.seq
  rintro r _ t ⟨rfl, rfl, -⟩
  rcases r.rootPageID with _ | root
  · exact Refines.fail
  · refine (h.fetchPage root).seq_and fun _ _ t h _ => ?_
    exact h.descend key leftMost fuel root

theorem getValue (h : Sized m none t) (fuel : Nat) (key : K) :
    Refines asLists (BPlusTree.getValue fuel key) (getValue fuel key) (fun a b t' => a = b ∧ Sized m none t') t := by
  apply refines_getMember.seq
  rintro r _ t ⟨rfl, rfl, -⟩
  refine Refines.ite Iff.rfl (fun _ => Refines.pure ⟨rfl, h⟩) fun _ => ?_
  apply (h.findLeafPage fuel key false).seq
  rintro leaf _ t ⟨rfl, h⟩
  apply (refines_getLeaf leaf).seq
  rintro _ p t ⟨rfl, rfl, hp⟩
  apply refines_some (BPlusTreeLeafPage.lookup_toLeafPage (h.leaf_fits hp))
  refine (h.unpinPage p.pageID false).seq_and fun _ _ t h _ => ?_
  exact Refines.pure ⟨rfl, h⟩

section Insertion
variable [Inhabited K] [Inhabited V]

theorem startNewTree (h : Sized m none t) (key : K) (value : V) :
    Refines asLists (BPlusTree.startNewTree key value) (startNewTree key value) (fun _ _ t' => Sized m none t') t := by
  have h2 := m.two_le
  have hfit := m.leaf_fits
  apply h.newIndexPage.seq
  rintro root _ t ⟨rfl, h⟩
  apply refines_getMember.seq
  rintro r _ t ⟨rfl, rfl, rfl⟩
  have hroom : (BPlusTreeLeafPage.init root INVALID_PAGE_ID t.member.leafMaxSize : BPlusTreeLeafPage K V).getSize <
      LEAF_PAGE_SIZE := show 0 < LEAF_PAGE_SIZE by omega
  refine h.setLeaf (BPlusTreeLeafPage.insert_toLeafPage hroom value) h.leafMax ?_ ?_
  · show 1 < m.leafMax
    omega
  rintro p t - - h
  refine (h.unpinPage root true).seq_and fun _ _ t h _ => ?_
  refine (h.setRootPageID (some root)).seq fun _ _ t h => ?_
  exact h.updateRootPageID

omit [LinearOrder K] in
theorem split {node : PageIDType} (h : Sized m (some node) t) (N : NodeType) :
    Refines asLists (BPlusTree.split N node) (ArrayTree.split N node) (fun a b t' => a = b ∧ Sized m none t') t := by
  have h2 := m.two_le
  apply (refines_getNode node).seq
  rintro n _ t ⟨rfl, rfl, -⟩
  refine Refines.ite Iff.rfl (fun _ => Refines.fail) fun _ => ?_
  apply h.newIndexPage.seq
  rintro new _ t ⟨rfl, h⟩
  cases N with
  | LeafPage =>
    apply refines_getMember.seq
    rintro r _ t ⟨rfl, rfl, rfl⟩
    have hfits : m.Fits 0 (.leaf (BPlusTreeLeafPage.init new n.parentPageID t.member.leafMaxSize) : ArrayPage K V) :=
      ⟨h.leafMax, show 0 < m.leafMax + 0 by omega⟩
    apply Refines.seq (h.setData rfl hfits)
    rintro _ _ t ⟨h, rfl⟩
    refine (h.leaf_moveHalfTo fun r hr => ?_).seq fun _ _ t h => ?_
    · obtain rfl : BPlusTreeLeafPage.init _ _ _ = r := by simpa using hr
      rfl
    exact Refines.pure ⟨rfl, h⟩
  | InternalPage =>
    apply refines_getMember.seq
    rintro r _ t ⟨rfl, rfl, rfl⟩
    have hfits : m.Fits 0 (.internal (BPlusTreeInternalPage.init new n.parentPageID t.member.internalMaxSize) :
        ArrayPage K V) := ⟨congrArg (max · 4) h.internalMax, show 0 < max m.internalMax 4 + 0 by omega⟩
    apply Refines.seq (h.setData rfl hfits)
    rintro _ _ t ⟨h, rfl⟩
    refine (h.internal_moveHalfTo (Function.update_self ..) rfl).seq fun _ _ t h => ?_
    exact Refines.pure ⟨rfl, h⟩

omit [LinearOrder K] in
theorem insertIntoParent (h : Sized m none t) (fuel : Nat) (old : PageIDType) (key : K) (new : PageIDType) :
    Refines asLists (BPlusTree.insertIntoParent fuel old key new) (insertIntoParent fuel old key new)
      (fun _ _ t' => Sized m none t') t := by
  induction fuel generalizing t old key new with
  | zero => exact Refines.fail
  | succ fuel ih =>
    unfold BPlusTree.insertIntoParent ArrayTree.insertIntoParent
    apply (refines_getNode old).seq
    rintro n _ t ⟨rfl, rfl, -⟩
    apply (refines_getNode new).seq
    rintro n' _ t ⟨rfl, rfl, -⟩
    -- the old page was the root, or has a parent with a free slot
    rcases n.parentPageID with _ | parent
    · apply h.newIndexPage.seq
      rintro root _ t ⟨rfl, h⟩
      apply refines_getMember.seq
      rintro r _ t ⟨rfl, rfl, rfl⟩
      apply (refines_require (BPlusTreeInternalPage.populateNewRoot_init ..)).seq
      rintro _ p t ⟨rfl, rfl, hp⟩
      obtain ⟨hmax, hsize⟩ := BPlusTreeInternalPage.populateNewRoot_sizes hp
      have hfits : m.Fits 0 (.internal p : ArrayPage K V) :=
        ⟨hmax.trans (congrArg (max · 4) h.internalMax), show p.getSize < max m.internalMax 4 + 0 by omega⟩
      refine Refines.seq_and (h.setData rfl hfits) fun _ _ t h _ => ?_
      refine (h.setParentPageID old _).seq fun _ _ t h => ?_
      refine (h.setParentPageID new _).seq fun _ _ t h => ?_
      refine (h.setRootPageID _).seq fun _ _ t h => ?_
      refine h.updateRootPageID.seq fun _ _ t h => ?_
      exact (h.unpinPage root true).conseq fun _ _ _ hr => hr.1
    · refine (h.fetchPage parent).seq_and fun _ _ t h _ => ?_
      apply (refines_getInternal parent).seq
      rintro _ p t ⟨rfl, rfl, hp⟩
      obtain ⟨hmax, hsize⟩ := h.internal_lt hp
      have hcap := m.internal_fits
      apply (refines_require (BPlusTreeInternalPage.insertNodeAfter_toInternalPage (by omega) _ _ _)).seq
      rintro _ q t ⟨rfl, rfl, hq⟩
      obtain ⟨hqmax, hqsize⟩ := BPlusTreeInternalPage.insertNodeAfter_sizes hq
      refine Refines.seq (refines_setData rfl) ?_
      rintro _ _ t' rfl
      have hend : ∀ t : ArrayStore K V, Sized m none t → Refines asLists
          (do MisakiDB.unpinPage (← getInternal parent).pageID true)
          (do MisakiDB.unpinPage (← getInternal parent).pageID true) (fun _ _ t' => Sized m none t') t := by
        intro t h
        apply (refines_getInternal parent).seq
        rintro _ p t ⟨rfl, rfl, -⟩
        exact (h.unpinPage p.pageID true).conseq fun _ _ _ hr => hr.1
      have hs : q.toInternalPage.getSize = q.getSize := BPlusTreeInternalPage.toInternalPage_getSize
      -- a full parent is split before the page can be written to again
      refine Refines.ite (by rw [hs]; rfl) (fun _ => ?_) fun hfull => ?_
      · have h := h.fill (k := parent) (.internal q)
          ⟨hqmax.trans hmax, show q.getSize < max m.internalMax 4 + 1 by omega⟩
        apply (h.split .InternalPage).seq
        rintro new _ t ⟨rfl, h⟩
        apply (refines_getInternal new).seq
        rintro _ r t ⟨rfl, rfl, hr⟩
        have hkey := BPlusTreeInternalPage.keyAt_toInternalPage (i := 0) (h.internal_fits hr)
        apply (refines_require_eq fun a ha => hkey.trans ha).seq
        rintro k _ t ⟨rfl, rfl, -⟩
        refine (ih h parent k new).seq fun _ _ t h => ?_
        apply (refines_getInternal new).seq
        rintro _ r t ⟨rfl, rfl, -⟩
        refine (h.unpinPage r.pageID true).seq_and fun _ _ t h _ => ?_
        exact hend t h
      · rw [hs] at hfull
        have hqmax' : q.toInternalPage.maxSize = q.maxSize := rfl
        have h := h.setPage (k := parent) (.internal q)
          ⟨hqmax.trans hmax, show q.getSize < max m.internalMax 4 + 0 by omega⟩
        exact hend _ h

theorem insertIntoLeaf (h : Sized m none t) (fuel : Nat) (key : K) (value : V) :
    Refines asLists (BPlusTree.insertIntoLeaf fuel key value) (insertIntoLeaf fuel key value)
      (fun a b t' => a = b ∧ Sized m none t') t := by
  have hcap := m.leaf_fits
  apply (h.findLeafPage fuel key false).seq
  rintro leaf _ t ⟨rfl, h⟩
  apply (refines_getLeaf leaf).seq
  rintro _ p t ⟨rfl, rfl, hp⟩
  obtain ⟨hmax, hsize⟩ := h.leaf_lt hp
  apply refines_some (BPlusTreeLeafPage.lookup_toLeafPage (h.leaf_fits hp))
  refine Refines.ite Iff.rfl (fun _ => Refines.pure ⟨rfl, h⟩) fun _ => ?_
  have hins : (p.insert key value).map _ = _ := BPlusTreeLeafPage.insert_toLeafPage (by omega) value
  obtain ⟨q, hq, hql⟩ := Option.map_eq_some_iff.1 hins
  obtain ⟨hqmax, hqsize⟩ := BPlusTreeLeafPage.insert_sizes hq
  apply refines_some hq
  rw [← hql]
  refine Refines.seq (refines_setData rfl) ?_
  rintro _ _ t' rfl
  have hend : ∀ t : ArrayStore K V, Sized m none t → Refines asLists
      (do MisakiDB.unpinPage (← getLeaf leaf).pageID true; Pure.pure true)
      (do MisakiDB.unpinPage (← getLeaf leaf).pageID true; Pure.pure true)
      (fun a b t' => a = b ∧ Sized m none t') t := by
    intro t h
    apply (refines_getLeaf leaf).seq
    rintro _ p t ⟨rfl, rfl, -⟩
    refine (h.unpinPage p.pageID true).seq_and fun _ _ t h _ => ?_
    exact Refines.pure ⟨rfl, h⟩
  have hs : q.toLeafPage.getSize = q.getSize := BPlusTreeLeafPage.toLeafPage_getSize
  have hpm : p.toLeafPage.maxSize = q.maxSize := hqmax.symm
  refine Refines.ite (by rw [hs, hpm]) (fun _ => ?_) fun hfull => ?_
  · have h := h.fill (k := leaf) (.leaf q) ⟨hqmax.trans hmax, show q.getSize < m.leafMax + 1 by omega⟩
    apply (h.split NodeType.LeafPage).seq
    rintro new _ t ⟨rfl, h⟩
    apply (refines_getLeaf leaf).seq
    rintro _ p t ⟨rfl, rfl, hp⟩
    apply (refines_getLeaf new).seq
    rintro _ r t ⟨rfl, rfl, hr⟩
    obtain ⟨hpmax, hpsize⟩ := h.leaf_lt hp
    obtain ⟨hrmax, hrsize⟩ := h.leaf_lt hr
    have hkey := BPlusTreeLeafPage.keyAt_toLeafPage (i := 0) (h.leaf_fits hr)
    have hrfits : m.Fits 0 (.leaf { r with nextPageID := p.nextPageID }) := ⟨hrmax, hrsize⟩
    have hpfits : m.Fits 0 (.leaf { p with nextPageID := some r.pageID }) := ⟨hpmax, hpsize⟩
    refine Refines.seq_and (h.setData rfl hrfits) fun _ _ t h _ => ?_
    refine Refines.seq_and (h.setData rfl hpfits) fun _ _ t h _ => ?_
    apply (refines_require_eq fun a ha => hkey.trans ha).seq
    rintro k _ t ⟨rfl, rfl, -⟩
    refine (h.insertIntoParent fuel leaf k new).seq fun _ _ t h => ?_
    apply (refines_getLeaf new).seq
    rintro _ r t ⟨rfl, rfl, -⟩
    refine (h.unpinPage r.pageID true).seq_and fun _ _ t h _ => ?_
    exact hend t h
  · rw [hs, hpm] at hfull
    have h := h.setPage (k := leaf) (.leaf q) ⟨hqmax.trans hmax, show q.getSize < m.leafMax + 0 by omega⟩
    exact hend _ h

theorem insert (h : Sized m none t) (fuel : Nat) (key : K) (value : V) :
    Refines asLists (BPlusTree.insert fuel key value) (insert fuel key value)
    (fun a b t' => a = b ∧ Sized m none t') t := by
  apply refines_getMember.seq
  rintro r _ t ⟨rfl, rfl, -⟩
  refine Refines.ite Iff.rfl (fun _ => ?_) fun _ => h.insertIntoLeaf fuel key value
  refine (h.startNewTree key value).seq fun _ _ t h => ?_
  exact Refines.pure ⟨rfl, h⟩

end Insertion

end Sized

/-! ## Removal -/

/-- Less than half full. -/
def Small (k : PageIDType) (t : ArrayStore K V) : Prop :=
  ∀ n, (t.page k).bind IndexFilePage.node = some n → n.size < n.maxSize / 2

namespace Sized

theorem removeAndReturnOnlyChild (h : Sized m none t) (root : PageIDType) :
    Refines asLists (InternalPage.removeAndReturnOnlyChild root) (BPlusTreeInternalPage.removeAndReturnOnlyChild root)
      (fun a b t' => a = b ∧ Sized m none t') t := by
  apply (refines_getInternal root).seq
  rintro _ p t ⟨rfl, rfl, hp⟩
  obtain ⟨hmax, hsize⟩ := h.internal_lt hp
  have hval := BPlusTreeInternalPage.valueAt_toInternalPage (i := 0) (h.internal_fits hp)
  apply (refines_require_eq fun a ha => hval.trans ha).seq
  rintro child _ t ⟨rfl, rfl, -⟩
  have hs : p.toInternalPage.getSize = p.getSize := BPlusTreeInternalPage.toInternalPage_getSize
  have hset : (p.setSize (p.getSize - 1)).toInternalPage = p.toInternalPage.setSize (p.getSize - 1) :=
    BPlusTreeInternalPage.setSize_toInternalPage (Nat.sub_le _ _)
  have hfits : m.Fits 0 (.internal (p.setSize (p.getSize - 1)) : ArrayPage K V) :=
    ⟨hmax, show p.getSize - 1 < max m.internalMax 4 + 0 by omega⟩
  rw [hs, ← hset]
  refine Refines.seq_and (h.setData rfl hfits) fun _ _ t h _ => ?_
  exact Refines.pure ⟨rfl, h⟩

theorem adjustRoot (h : Sized m none t) (root : PageIDType) :
    Refines asLists (BPlusTree.adjustRoot root) (adjustRoot root) (fun a b t' => a = b ∧ Sized m none t') t := by
  apply (refines_getNode root).seq
  rintro n _ t ⟨rfl, rfl, -⟩
  refine Refines.ite Iff.rfl (fun _ => Refines.fail) fun _ => ?_
  refine Refines.ite Iff.rfl (fun _ => ?_) fun _ => ?_
  · refine (h.setRootPageID none).seq fun _ _ t h => ?_
    refine h.updateRootPageID.seq fun _ _ t h => ?_
    exact Refines.pure ⟨rfl, h⟩
  refine Refines.ite Iff.rfl (fun _ => ?_) fun _ => Refines.pure ⟨rfl, h⟩
  apply (h.removeAndReturnOnlyChild root).seq
  rintro child _ t ⟨rfl, h⟩
  refine (h.setRootPageID _).seq fun _ _ t h => ?_
  refine h.updateRootPageID.seq fun _ _ t h => ?_
  refine (h.fetchPage child).seq_and fun _ _ t h _ => ?_
  refine (h.setParentPageID child _).seq fun _ _ t h => ?_
  apply (refines_getNode child).seq
  rintro c _ t ⟨rfl, rfl, -⟩
  refine (h.unpinPage c.pageID true).seq_and fun _ _ t h _ => ?_
  exact Refines.pure ⟨rfl, h⟩

section Siblings
variable {N : NodeType} {neighbor node parent : PageIDType} {index : Nat}

/-- Two pages whose entries fit in one, and leave room. -/
structure Merges (m : Limits) (a b : PageIDType) (t : ArrayStore K V) : Prop where
  leaf : ∀ p r, t.page a = some (.leaf p) → t.page b = some (.leaf r) → p.getSize + r.getSize < m.leafMax
  internal : ∀ p r, t.page a = some (.internal p) → t.page b = some (.internal r) →
    p.getSize + r.getSize < max m.internalMax 4

theorem Merges.symm {a b : PageIDType} (h : Merges m a b t) : Merges m b a t :=
  ⟨fun p r hp hr => Nat.add_comm .. ▸ h.leaf r p hr hp, fun p r hp hr => Nat.add_comm .. ▸ h.internal r p hr hp⟩

theorem coalesce (h : Sized m none t) (hm : Merges m neighbor node t) {rec : PageIDType → IndexProg K V Bool}
    {rec' : PageIDType → ArrayProg K V Bool} (hrec : ∀ t : ArrayStore K V, Sized m none t → Small parent t →
      Refines asLists (rec parent) (rec' parent) (fun a b t' => a = b ∧ Sized m none t') t) :
    Refines asLists (BPlusTree.coalesce rec N neighbor node parent index) (coalesce rec' N neighbor node parent index)
      (fun a b t' => a = b ∧ Sized m none t') t := by
  apply (refines_getInternal parent).seq
  rintro _ p t ⟨rfl, rfl, hp⟩
  have hcap := h.internal_fits hp
  have hval := BPlusTreeInternalPage.valueAt_toInternalPage (i := index) hcap
  have hkey := BPlusTreeInternalPage.keyAt_toInternalPage (i := index) hcap
  apply (refines_require_eq fun a ha => hval.trans ha).seq
  rintro x _ t ⟨rfl, rfl, -⟩
  apply (refines_getNode neighbor).seq
  rintro n _ t ⟨rfl, rfl, -⟩
  -- the entries of page `b` go to page `a`
  obtain ⟨a, b, hab, hm⟩ : ∃ a b,
      (if x = n.pageID then (node, neighbor) else (neighbor, node)) = (a, b) ∧ Merges m b a t := by
    by_cases hx : x = n.pageID
    · exact ⟨node, neighbor, if_pos hx, hm⟩
    · exact ⟨neighbor, node, if_neg hx, hm.symm⟩
  have hend : ∀ t : ArrayStore K V, Sized m none t → Refines asLists
      (do
        let p ← require ((← getInternal parent).remove index)
        MisakiDB.setInternal parent p
        if p.getSize < p.getMinSize then
          Pure.pure (a, b, ← rec parent)
        else
          Pure.pure (a, b, false))
      (do
        let p ← require ((← getInternal parent).remove index)
        MisakiDB.setInternal parent p
        if p.getSize < p.getMinSize then
          Pure.pure (a, b, ← rec' parent)
        else
          Pure.pure (a, b, false)) (fun a b t' => a = b ∧ Sized m none t') t := by
    intro t h
    apply (refines_getInternal parent).seq
    rintro _ p t ⟨rfl, rfl, hp⟩
    obtain ⟨hmax, hsize⟩ := h.internal_lt hp
    apply (refines_require (BPlusTreeInternalPage.remove_toInternalPage (h.internal_fits hp))).seq
    rintro _ q t ⟨rfl, rfl, hq⟩
    obtain ⟨hqmax, hqsize⟩ := BPlusTreeInternalPage.remove_sizes hq
    have hs : q.toInternalPage.getSize = q.getSize := BPlusTreeInternalPage.toInternalPage_getSize
    have hfits : m.Fits 0 (.internal q : ArrayPage K V) :=
      ⟨hqmax.trans hmax, show q.getSize < max m.internalMax 4 + 0 by omega⟩
    apply Refines.seq (h.setData rfl hfits)
    rintro _ _ t ⟨h, rfl⟩
    refine Refines.ite (by rw [hs]; rfl) (fun hsmall => ?_) fun _ => Refines.pure ⟨rfl, h⟩
    rw [hs] at hsmall
    have hsmall : Small parent (t.setPage parent (.internal q)) := by
      intro n hn
      obtain rfl : BPlusTreePage.mk false q.pageID q.parentPageID q.getSize q.maxSize = n := by
        simpa [IndexFilePage.node, TreePage.base] using hn
      exact hsmall
    apply (hrec _ h hsmall).seq
    rintro needDelete _ t ⟨rfl, h⟩
    exact Refines.pure ⟨rfl, h⟩
  simp only [hab]
  cases N with
  | LeafPage =>
    refine (h.leaf_moveAllTo hm.leaf).seq fun _ _ t h => ?_
    exact hend t h
  | InternalPage =>
    apply (refines_require_eq fun a ha => hkey.trans ha).seq
    rintro k _ t ⟨rfl, rfl, -⟩
    refine (h.internal_moveAllTo hm.internal k).seq fun _ _ t h => ?_
    exact hend t h

/-- One entry goes from one page to another that is less than half full. -/
theorem redistribute (h : Sized m none t) (hsmall : Small node t) :
    Refines asLists (BPlusTree.redistribute N neighbor node index) (redistribute N neighbor node index)
      (fun _ _ t' => Sized m none t') t := by
  have h2 := m.two_le
  apply (refines_getNode node).seq
  rintro n _ t ⟨rfl, rfl, -⟩
  apply (refines_require_eq fun _ ha => ha).seq
  rintro parent _ t ⟨rfl, rfl, -⟩
  have hleaf : ∀ r, t.page node = some (.leaf r) → r.getSize + 1 < m.leafMax := by
    intro r hr
    have hlt := hsmall ⟨true, r.pageID, r.parentPageID, r.getSize, r.maxSize⟩ (by rw [hr]; rfl)
    have hmax := (h.leaf_lt hr).1
    simp only at hlt
    omega
  have hinternal : ∀ r, t.page node = some (.internal r) → r.getSize + 1 < max m.internalMax 4 := by
    intro r hr
    have hlt := hsmall ⟨false, r.pageID, r.parentPageID, r.getSize, r.maxSize⟩ (by rw [hr]; rfl)
    have hmax := (h.internal_lt hr).1
    simp only at hlt
    omega
  refine (h.fetchPage parent).seq_and fun _ _ t1 h hpages => ?_
  rw [← hpages] at hleaf hinternal
  apply (refines_getInternal parent).seq
  rintro _ p t ⟨rfl, rfl, hp⟩
  obtain ⟨hmax, hsize⟩ := h.internal_lt hp
  have hcap := h.internal_fits hp
  have hval := BPlusTreeInternalPage.valueAt_toInternalPage (i := index) hcap
  have hkey := BPlusTreeInternalPage.keyAt_toInternalPage (i := index) hcap
  apply (refines_require_eq fun a ha => hval.trans ha).seq
  rintro x _ t ⟨rfl, rfl, -⟩
  have hset : ∀ (key : K) (t : ArrayStore K V), Sized m none t → Refines asLists
      (do MisakiDB.setInternal parent (← require (p.toInternalPage.setKeyAt index key)))
      (do MisakiDB.setInternal parent (← require (p.setKeyAt index key))) (fun _ _ t' => Sized m none t') t := by
    intro key t h
    apply (refines_require (BPlusTreeInternalPage.setKeyAt_toInternalPage hcap key)).seq
    rintro _ q t ⟨rfl, rfl, hq⟩
    obtain ⟨hqmax, hqsize, -⟩ := BPlusTreeInternalPage.setKeyAt_sizes hq
    have hfits : m.Fits 0 (.internal q : ArrayPage K V) :=
      ⟨hqmax.trans hmax, show q.getSize < max m.internalMax 4 + 0 by omega⟩
    exact Refines.conseq (h.setData rfl hfits) fun _ _ _ hr => hr.1
  -- the new separator is the first key of the right page
  have hleafEnd : ∀ (right : PageIDType) (t : ArrayStore K V), Sized m none t → Refines asLists
      (do MisakiDB.setInternal parent (← require (p.toInternalPage.setKeyAt index
        (← require ((← getLeaf right).keyAt 0)))))
      (do MisakiDB.setInternal parent (← require (p.setKeyAt index (← require ((← getLeaf right).keyAt 0)))))
      (fun _ _ t' => Sized m none t') t := by
    intro right t h
    apply (refines_getLeaf right).seq
    rintro _ r t ⟨rfl, rfl, hr⟩
    have hfirst := BPlusTreeLeafPage.keyAt_toLeafPage (i := 0) (h.leaf_fits hr)
    apply (refines_require_eq fun a ha => hfirst.trans ha).seq
    rintro key _ t ⟨rfl, rfl, -⟩
    exact hset key t h
  refine Refines.ite Iff.rfl (fun _ => ?_) fun _ => ?_
  · cases N with
    | LeafPage =>
      refine (h.leaf_moveLastToFrontOf hleaf).seq fun _ _ t h => ?_
      exact hleafEnd node t h
    | InternalPage =>
      apply (refines_getInternal neighbor).seq
      rintro _ r t ⟨rfl, rfl, hr⟩
      have hs : r.toInternalPage.getSize = r.getSize := BPlusTreeInternalPage.toInternalPage_getSize
      have hlast := BPlusTreeInternalPage.keyAt_toInternalPage (i := r.getSize - 1) (h.internal_fits hr)
      rw [hs]
      apply (refines_require_eq fun a ha => hlast.trans ha).seq
      rintro last _ t ⟨rfl, rfl, -⟩
      apply (refines_require_eq fun a ha => hkey.trans ha).seq
      rintro key _ t ⟨rfl, rfl, -⟩
      refine (h.internal_moveLastToFrontOf hinternal key).seq fun _ _ t h => ?_
      exact hset last t h
  · cases N with
    | LeafPage =>
      refine (h.leaf_moveFirstToEndOf hleaf).seq fun _ _ t h => ?_
      exact hleafEnd neighbor t h
    | InternalPage =>
      apply (refines_getInternal neighbor).seq
      rintro _ r t ⟨rfl, rfl, hr⟩
      have hfirst := BPlusTreeInternalPage.keyAt_toInternalPage (i := 1) (h.internal_fits hr)
      apply (refines_require_eq fun a ha => hfirst.trans ha).seq
      rintro first _ t ⟨rfl, rfl, -⟩
      apply (refines_require_eq fun a ha => hkey.trans ha).seq
      rintro key _ t ⟨rfl, rfl, -⟩
      refine (h.internal_moveFirstToEndOf hinternal key).seq fun _ _ t h => ?_
      exact hset first t h

end Siblings

theorem coalesceOrRedistribute (h : Sized m none t) (fuel : Nat) (N : NodeType) (node : PageIDType)
    (hsmall : Small node t) :
    Refines asLists (BPlusTree.coalesceOrRedistribute fuel N node) (coalesceOrRedistribute fuel N node)
      (fun a b t' => a = b ∧ Sized m none t') t := by
  induction fuel generalizing t N node with
  | zero => exact Refines.fail
  | succ fuel ih =>
    unfold BPlusTree.coalesceOrRedistribute ArrayTree.coalesceOrRedistribute
    apply (refines_getNode node).seq
    rintro n _ t ⟨rfl, rfl, hn⟩
    -- the root has no sibling
    rcases n.parentPageID with _ | parent
    · have hroot : Refines asLists (do let _ ← BPlusTree.adjustRoot node; Pure.pure true)
          (do let _ ← ArrayTree.adjustRoot node; Pure.pure true) (fun a b t' => a = b ∧ Sized m none t') t := by
        apply (h.adjustRoot node).seq
        rintro _ _ t ⟨-, h⟩
        exact Refines.pure ⟨rfl, h⟩
      refine Refines.ite Iff.rfl (fun _ => hroot) fun _ => ?_
      exact Refines.ite Iff.rfl (fun _ => hroot) fun _ => Refines.pure ⟨rfl, h⟩
    -- a sibling is looked up in the parent
    refine (h.fetchPage parent).seq_and fun _ _ t1 h hpages => ?_
    apply (refines_getInternal parent).seq
    rintro _ p t1 ⟨rfl, rfl, hp⟩
    have hcap := h.internal_fits hp
    have hindex := BPlusTreeInternalPage.valueIndex_toInternalPage hcap n.pageID
    apply (refines_require_eq fun a ha => hindex.trans ha).seq
    rintro thisIndex _ t1 ⟨rfl, rfl, -⟩
    have hs : p.toInternalPage.getSize = p.getSize := BPlusTreeInternalPage.toInternalPage_getSize
    rw [hs]
    apply (refines_require_eq fun _ ha => ha).seq
    rintro ⟨siblingIndex, middleIndex⟩ _ t1 ⟨rfl, rfl, -⟩
    have hval := BPlusTreeInternalPage.valueAt_toInternalPage (i := siblingIndex) hcap
    apply (refines_require_eq fun a ha => hval.trans ha).seq
    rintro sibling _ t1 ⟨rfl, rfl, -⟩
    refine (h.fetchPage sibling).seq_and fun _ _ t2 h hpages2 => ?_
    have hn2 : (t2.page node).bind IndexFilePage.node = some n := by rw [hpages2, hpages, hn]
    have hsmall2 : Small node t2 := by
      intro n' hn'
      rw [hpages2, hpages] at hn'
      exact hsmall n' hn'
    apply (refines_getNode sibling).seq
    rintro q _ t2 ⟨rfl, rfl, hq⟩
    refine Refines.ite Iff.rfl (fun hsum => ?_) fun _ => ?_
    -- the entries of both fit one page, whichever of the two takes them
    · have hm : Merges m sibling node t2 := by
        constructor
        · intro a b ha hb
          rw [ha] at hq
          rw [hb] at hn2
          obtain rfl := Option.some.inj hq
          obtain rfl := Option.some.inj hn2
          have hmax := (h.leaf_lt hb).1
          have hsum : a.getSize + b.getSize < b.maxSize := hsum
          omega
        · intro a b ha hb
          rw [ha] at hq
          rw [hb] at hn2
          obtain rfl := Option.some.inj hq
          obtain rfl := Option.some.inj hn2
          have hmax := (h.internal_lt hb).1
          have hsum : a.getSize + b.getSize < b.maxSize := hsum
          omega
      apply (h.coalesce hm fun t h hsmall => ih h .InternalPage parent hsmall).seq
      rintro ⟨neighborNode, dead, needDelete⟩ _ t ⟨rfl, h⟩
      apply (refines_getInternal parent).seq
      rintro _ r t ⟨rfl, rfl, -⟩
      refine (h.unpinPage r.pageID true).seq_and fun _ _ t h _ => ?_
      -- the page that died is freed here or by the caller
      have hend : ∀ t : ArrayStore K V, Sized m none t → Refines asLists
          (do
            if neighborNode ≠ sibling then
              let nodeID := (← getNode dead).pageID
              MisakiDB.unpinPage nodeID true
              let _ ← MisakiDB.deleteIndexPage nodeID
              Pure.pure false
            else
              MisakiDB.unpinPage (← getNode neighborNode).pageID true
              Pure.pure true)
          (do
            if neighborNode ≠ sibling then
              let nodeID := (← getNode dead).pageID
              MisakiDB.unpinPage nodeID true
              let _ ← MisakiDB.deleteIndexPage nodeID
              Pure.pure false
            else
              MisakiDB.unpinPage (← getNode neighborNode).pageID true
              Pure.pure true) (fun a b t' => a = b ∧ Sized m none t') t := by
        intro t h
        refine Refines.ite Iff.rfl (fun _ => ?_) fun _ => ?_
        · apply (refines_getNode dead).seq
          rintro q _ t ⟨rfl, rfl, -⟩
          refine (h.unpinPage q.pageID true).seq_and fun _ _ t h _ => ?_
          refine (h.deleteIndexPage q.pageID).seq_and fun _ _ t _ h => ?_
          exact Refines.pure ⟨rfl, h⟩
        · apply (refines_getNode neighborNode).seq
          rintro q _ t ⟨rfl, rfl, -⟩
          refine (h.unpinPage q.pageID true).seq_and fun _ _ t h _ => ?_
          exact Refines.pure ⟨rfl, h⟩
      refine Refines.ite Iff.rfl (fun _ => ?_) fun _ => hend t h
      refine (h.deleteIndexPage _).seq_and fun _ _ t _ h => ?_
      exact hend t h
    -- the two sizes reach the maximum, and one entry moves
    · refine (h.redistribute hsmall2).seq fun _ _ t h => ?_
      apply (refines_getNode sibling).seq
      rintro q _ t ⟨rfl, rfl, -⟩
      refine (h.unpinPage q.pageID true).seq_and fun _ _ t h _ => ?_
      apply (refines_getInternal parent).seq
      rintro _ p t ⟨rfl, rfl, -⟩
      refine (h.unpinPage p.pageID true).seq_and fun _ _ t h _ => ?_
      exact Refines.pure ⟨rfl, h⟩

theorem remove [LinearOrder K] (h : Sized m none t) (fuel : Nat) (key : K) :
    Refines asLists (BPlusTree.remove fuel key) (remove fuel key) (fun a b t' => a = b ∧ Sized m none t') t := by
  have hcap := m.leaf_fits
  apply refines_getMember.seq
  rintro r _ t ⟨rfl, rfl, -⟩
  refine Refines.ite Iff.rfl (fun _ => Refines.pure ⟨rfl, h⟩) fun _ => ?_
  apply (h.findLeafPage fuel key false).seq
  rintro leaf _ t ⟨rfl, h⟩
  apply (refines_getLeaf leaf).seq
  rintro _ p t ⟨rfl, rfl, hp⟩
  obtain ⟨hmax, hsize⟩ := h.leaf_lt hp
  have hremove : (p.removeAndDeleteRecord key).map _ = _ :=
    BPlusTreeLeafPage.removeAndDeleteRecord_toLeafPage (by omega)
  obtain ⟨⟨removed, q⟩, hq, hql⟩ := Option.map_eq_some_iff.1 hremove
  obtain ⟨hqmax, hqsize⟩ := BPlusTreeLeafPage.removeAndDeleteRecord_sizes hq
  apply refines_some hq
  rw [← hql]
  rcases removed with _ | removedValue
  · refine (h.unpinPage q.pageID false).seq_and fun _ _ t h _ => ?_
    exact Refines.pure ⟨rfl, h⟩
  · have hfits : m.Fits 0 (.leaf q : ArrayPage K V) := ⟨hqmax.trans hmax, show q.getSize < m.leafMax + 0 by
      simp only at hqsize
      omega⟩
    apply Refines.seq (h.setData rfl hfits)
    rintro _ _ t ⟨h, rfl⟩
    have hend : ∀ (needDelete : Bool) (t : ArrayStore K V), Sized m none t → Refines asLists
        (do
          let leafID := (← getLeaf leaf).pageID
          MisakiDB.unpinPage leafID true
          if needDelete then
            let _ ← MisakiDB.deleteIndexPage leafID
          Pure.pure (some removedValue))
        (do
          let leafID := (← getLeaf leaf).pageID
          MisakiDB.unpinPage leafID true
          if needDelete then
            let _ ← MisakiDB.deleteIndexPage leafID
          Pure.pure (some removedValue)) (fun a b t' => a = b ∧ Sized m none t') t := by
      intro needDelete t h
      apply (refines_getLeaf leaf).seq
      rintro _ p t ⟨rfl, rfl, -⟩
      refine (h.unpinPage p.pageID true).seq_and fun _ _ t h _ => ?_
      refine Refines.ite Iff.rfl (fun _ => ?_) fun _ => Refines.pure ⟨rfl, h⟩
      refine (h.deleteIndexPage p.pageID).seq_and fun _ _ t _ h => ?_
      exact Refines.pure ⟨rfl, h⟩
    have hs : q.toLeafPage.getSize = q.getSize := BPlusTreeLeafPage.toLeafPage_getSize
    refine Refines.ite (by simp only [hs]; rfl) (fun hsmall => ?_) fun _ => hend false _ h
    simp only [hs] at hsmall
    have hsmall : Small leaf (t.setPage leaf (.leaf q)) := by
      intro n hn
      obtain rfl : BPlusTreePage.mk true q.pageID q.parentPageID q.getSize q.maxSize = n := by
        simpa [IndexFilePage.node, TreePage.base] using hn
      exact hsmall
    apply (h.coalesceOrRedistribute fuel .LeafPage leaf hsmall).seq
    rintro needDelete _ t ⟨rfl, h⟩
    exact hend needDelete t h

/-! ## Runs -/

variable [Inhabited K] [Inhabited V]

omit [Inhabited K] [Inhabited V] in
theorem bound_eq (t : ArrayStore K V) : MisakiDB.bound (view asLists t) = bound t := by
  unfold MisakiDB.bound ArrayTree.bound
  rw [view_page]
  rcases t.page 0 with _ | pg
  · rfl
  · cases pg <;> rfl

variable [LinearOrder K]

theorem callProg (h : Sized m none t) (fuel : Nat) (c : Call K V) :
    Refines asLists (c.prog fuel) (callProg fuel c) (fun a b t' => a = b ∧ Sized m none t') t := by
  cases c with
  | insert key value =>
    apply (h.insert fuel key value).seq
    rintro a _ t ⟨rfl, h⟩
    exact Refines.pure ⟨rfl, h⟩
  | remove key =>
    apply (h.remove fuel key).seq
    rintro a _ t ⟨rfl, h⟩
    exact Refines.pure ⟨rfl, h⟩
  | getValue key =>
    apply (h.getValue fuel key).seq
    rintro a _ t ⟨rfl, h⟩
    exact Refines.pure ⟨rfl, h⟩

/-- A call that ends on the lists ends on the arrays, with the same answer. -/
theorem call (h : Sized m none t) {c : Call K V} {a : Answer V} {s' : IndexStore K V}
    (hr : MisakiDB.call c (view asLists t) = some (a, s')) :
    ∃ t', ArrayTree.call c t = some (a, t') ∧ s' = view asLists t' ∧ Sized m none t' := by
  unfold MisakiDB.call at hr
  rw [bound_eq] at hr
  obtain ⟨b, t', hrun, hs, rfl, h⟩ := Simulates.run (h.callProg (bound t) c) hr
  exact ⟨t', hrun, hs, h⟩

theorem calls (h : Sized m none t) {cs : List (Call K V)} {as : List (Answer V)} {s' : IndexStore K V}
    (hr : MisakiDB.calls cs (view asLists t) = some (as, s')) :
    ∃ t', ArrayTree.calls cs t = some (as, t') ∧ s' = view asLists t' ∧ Sized m none t' := by
  induction cs generalizing t as with
  | nil =>
    simp only [MisakiDB.calls, Option.some.injEq, Prod.mk.injEq] at hr
    obtain ⟨rfl, rfl⟩ := hr
    exact ⟨t, rfl, rfl, h⟩
  | cons c cs ih =>
    obtain ⟨⟨a, s1⟩, hc, hr⟩ := Option.bind_eq_some_iff.1 hr
    obtain ⟨⟨as', s2⟩, hcs, hr⟩ := Option.bind_eq_some_iff.1 hr
    simp only [Option.pure_def, Option.some.injEq, Prod.mk.injEq] at hr
    obtain ⟨rfl, rfl⟩ := hr
    obtain ⟨t1, hc', rfl, h⟩ := h.call hc
    obtain ⟨t2, hcs', rfl, h⟩ := ih h hcs
    exact ⟨t2, by simp [ArrayTree.calls, hc', hcs'], rfl, h⟩

omit [LinearOrder K] [Inhabited K] [Inhabited V] in
theorem create (m : Limits) : Sized m none (create m.leafMax m.internalMax : ArrayStore K V) := by
  refine ⟨rfl, rfl, fun k pg hk => ?_⟩
  obtain ⟨-, hk⟩ := Option.ite_none_right_eq_some.1 hk
  obtain rfl := Option.some.inj hk
  trivial

end Sized

theorem view_create (leafMax internalMax : Nat) :
    view asLists (create leafMax internalMax : ArrayStore K V) = BPlusTree.create leafMax internalMax := by
  refine congrArg (fun page => PageStore.mk page _ _ _) (funext fun k => ?_)
  by_cases hk : k = 0
  · simp [create, hk]
    rfl
  · simp [create, hk]

/-- Whatever calls are made on a new tree, each ends, with the answer of a finite map: no
access leaves its page, no assertion on an index breaks and nothing is thrown. -/
theorem calls_in_bounds [LinearOrder K] [Inhabited K] [Inhabited V] {leafMax internalMax : Nat} (h2 : 2 ≤ leafMax)
    (hleaf : leafMax ≤ LEAF_PAGE_SIZE)
    (hinternal : INTERNAL_PAGE_HEADER_SIZE + INTERNAL_ENTRY_SIZE * (max internalMax 4 + 1) ≤ PAGE_SIZE)
    (cs : List (Call K V)) :
    ∃ t, calls cs (create leafMax internalMax) = some ((mapCalls cs fun _ => none).1, t) := by
  have hfit : max internalMax 4 ≤ INTERNAL_CAPACITY := (lt_INTERNAL_CAPACITY.2 hinternal).le
  obtain ⟨s, hs⟩ := calls_eq_map h2 internalMax cs
  rw [← view_create] at hs
  obtain ⟨t, ht, -⟩ := (Sized.create ⟨leafMax, internalMax, h2, hleaf, hfit⟩).calls hs
  exact ⟨t, ht⟩

/-- The defaults of the constructor. -/
theorem calls_in_bounds_default : ∃ t, calls [.insert 1 10, .insert 2 20, .remove 1, .remove 1, .getValue 2]
      (create LEAF_PAGE_SIZE INTERNAL_PAGE_SIZE : ArrayStore Nat Nat) =
    some ([.inserted true, .inserted true, .found (some 10), .found none, .found (some 20)], t) :=
  calls_in_bounds (by decide) le_rfl (by decide) _

/-- The smallest pages, with splits, a borrowing and merges. -/
example : (calls [.insert 1 10, .insert 2 20, .insert 3 30, .insert 4 40, .remove 1, .remove 2, .getValue 3]
      (create 2 4 : ArrayStore Nat Nat)).map (·.1) =
    some [.inserted true, .inserted true, .inserted true, .inserted true, .found (some 10), .found (some 20),
      .found (some 30)] := by decide +kernel

end Tree

end MisakiDB.ArrayTree
