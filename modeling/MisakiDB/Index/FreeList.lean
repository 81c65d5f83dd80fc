import MisakiDB.Index.BPlusTree
import Mathlib.Data.List.Range
import Mathlib.Data.List.Nodup
import Mathlib.Algebra.Order.Group.Nat
/-!
# Which index pages are free

`Alloc s used free h` accounts for every page id the header has handed out:
each is in `used` or on the free list, once. `newIndexPage` moves a page to
`used`; `deleteIndexPage` moves an unpinned one back.
-/

namespace MisakiDB

variable {K V : Type}

open Prog PageStore

/-! ## Reading typed pages -/

section Access
variable {s : IndexStore K V} {p : Nat}

@[simp] theorem wp_require {α : Type} {o : Option α} {Q : α → IndexStore K V → Prop} :
    wp exec (require o) Q s ↔ ∃ a, o = some a ∧ Q a s := by
  cases o <;> simp [require]

@[simp] theorem wp_getHeader {Q : IndexFileHeader → IndexStore K V → Prop} :
    wp exec getHeader Q s ↔ ∃ h, s.page 0 = some (.header h) ∧ Q h s := by
  simp only [getHeader, wp_bind, wp_getData]
  rcases hp : s.page 0 with _ | ⟨_ | _ | _ | _ | _⟩ <;> simp

@[simp] theorem wp_getFreePage {Q : IndexFileFreePage → IndexStore K V → Prop} :
    wp exec (getFreePage p) Q s ↔ ∃ f, s.page p = some (.free f) ∧ Q f s := by
  simp only [getFreePage, wp_bind, wp_getData]
  rcases hp : s.page p with _ | ⟨_ | _ | _ | _ | _⟩ <;> simp

@[simp] theorem wp_getLeaf {Q : LeafPage K V → IndexStore K V → Prop} :
    wp exec (getLeaf p) Q s ↔ ∃ l, s.page p = some (.leaf l) ∧ Q l s := by
  simp only [getLeaf, wp_bind, wp_getData]
  rcases hp : s.page p with _ | ⟨_ | _ | _ | _ | _⟩ <;> simp

@[simp] theorem wp_getInternal {Q : InternalPage K → IndexStore K V → Prop} :
    wp exec (getInternal p) Q s ↔ ∃ i, s.page p = some (.internal i) ∧ Q i s := by
  simp only [getInternal, wp_bind, wp_getData]
  rcases hp : s.page p with _ | ⟨_ | _ | _ | _ | _⟩ <;> simp

@[simp] theorem wp_getNode {Q : BPlusTreePage → IndexStore K V → Prop} :
    wp exec (getNode p) Q s ↔ ∃ n, (s.page p).bind IndexFilePage.node = some n ∧ Q n s := by
  cases hp : s.page p <;> simp [getNode, hp]

@[simp] theorem wp_setLeaf {l : LeafPage K V} {Q} :
    wp exec (setLeaf p l) Q s ↔ (∃ q, s.page p = some q) ∧ Q () (s.setPage p (.leaf l)) := by
  simp [setLeaf]

@[simp] theorem wp_setInternal {i : InternalPage K} {Q} :
    wp exec (setInternal p i) Q s ↔ (∃ q, s.page p = some q) ∧ Q () (s.setPage p (.internal i)) := by
  simp [setInternal]

@[simp] theorem wp_setParentPageID {a : Option Nat} {Q} :
    wp exec (setParentPageID p a) Q s ↔
      ∃ pg, s.page p = some pg ∧ Q () (s.setPage p (pg.setParentPageID a)) := by
  simp only [setParentPageID, wp_bind, wp_getData, wp_setData]
  constructor
  · rintro ⟨pg, h, -, hq⟩
    exact ⟨pg, h, hq⟩
  · rintro ⟨pg, h, hq⟩
    exact ⟨pg, h, ⟨pg, h⟩, hq⟩

@[simp] theorem wp_setRootPageID {root : Option Nat} {Q} : wp exec (BPlusTree.setRootPageID root) Q s ↔
    Q () (s.withMember { s.member with rootPageID := root }) := by
  simp [BPlusTree.setRootPageID]

@[simp] theorem wp_updateRootPageID {Q} : wp exec BPlusTree.updateRootPageID Q s ↔
    ∃ h, s.page 0 = some (.header h) ∧
      Q () (s.setPage 0 (.header { h with rootPageID := s.member.rootPageID })) := by
  simp only [BPlusTree.updateRootPageID, wp_bind, wp_fetchPage, wp_getHeader, wp_getMember, wp_setData, wp_unpinPage,
    setPins_page, setPins_member, setPage_pins, setPins_pins, Function.update_self]
  constructor
  · rintro ⟨-, h, hh, -, -, hq⟩
    refine ⟨h, hh, ?_⟩
    simpa [setPins, setPage] using hq
  · rintro ⟨h, hh, hq⟩
    refine ⟨⟨_, hh⟩, h, hh, ⟨_, hh⟩, by simp, ?_⟩
    simpa [setPins, setPage] using hq

end Access

/-! ## The free list -/

/-- The pages of `free` are linked in this order, from the list header `start`. -/
def FreeChain (s : IndexStore K V) (start : Option Nat) : List Nat → Prop
  | [] => start = none
  | x :: free => start = some x ∧ ∃ f, s.page x = some (.free f) ∧ FreeChain s f.nextFreePageID free

theorem FreeChain.frame {s s' : IndexStore K V} {free : List Nat} (hp : ∀ x ∈ free, s'.page x = s.page x)
    {start : Option Nat} (h : FreeChain s start free) : FreeChain s' start free := by
  induction free generalizing start with
  | nil => exact h
  | cons x free ih =>
    obtain ⟨rfl, f, hf, hc⟩ := h
    refine ⟨rfl, f, ?_, ih (fun y hy => hp y (List.mem_cons_of_mem _ hy)) hc⟩
    rw [hp x List.mem_cons_self, hf]

structure Alloc (s : IndexStore K V) (used free : List Nat) (h : IndexFileHeader) : Prop where
  header : s.page 0 = some (.header h)
  root : h.rootPageID = s.member.rootPageID
  next_pos : 1 ≤ h.nextPageID
  chain : FreeChain s h.freePageListHeader free
  perm : (used ++ free).Perm (List.range' 1 (h.nextPageID - 1))
  fresh : ∀ x, h.nextPageID ≤ x → s.page x = none
  unpinned : ∀ x, x ≠ 0 → x ∉ used → s.pins x = 0

namespace Alloc

variable {s s' : IndexStore K V} {used free : List Nat} {h : IndexFileHeader}

theorem nodup (ha : Alloc s used free h) : (used ++ free).Nodup :=
  ha.perm.nodup_iff.2 List.nodup_range'

theorem mem_iff (ha : Alloc s used free h) (x : Nat) :
    x ∈ used ∨ x ∈ free ↔ 1 ≤ x ∧ x < h.nextPageID := by
  have := ha.perm.mem_iff (a := x)
  have hn := ha.next_pos
  rw [List.mem_append, List.mem_range'_1] at this
  rw [this]
  omega

theorem bounds (ha : Alloc s used free h) {x : Nat} (hx : x ∈ used) : 1 ≤ x ∧ x < h.nextPageID :=
  (ha.mem_iff x).1 (.inl hx)

theorem ne_zero (ha : Alloc s used free h) {x : Nat} (hx : x ∈ used) : x ≠ 0 := by
  have := ha.bounds hx
  omega

/-- Only the header, the free pages and the pages not handed out matter. -/
theorem frame (ha : Alloc s used free h) (hm : s'.member.rootPageID = s.member.rootPageID)
    (hp : ∀ x, x ∉ used → s'.page x = s.page x) (hn : ∀ x, x ≠ 0 → x ∉ used → s'.pins x = s.pins x) :
    Alloc s' used free h := by
  have hd := List.nodup_append.1 ha.nodup
  refine ⟨?_, hm ▸ ha.root, ha.next_pos, ?_, ha.perm, ?_, ?_⟩
  · rw [hp 0 fun h0 => ha.ne_zero h0 rfl, ha.header]
  · exact ha.chain.frame fun x hx => hp x fun hu => hd.2.2 x hu x hx rfl
  · intro x hx
    rw [hp x fun hu => by have := ha.bounds hu; omega, ha.fresh x hx]
  · intro x h0 hx
    rw [hn x h0 hx, ha.unpinned x h0 hx]

theorem congr_used (ha : Alloc s used free h) {used' : List Nat} (hu : used'.Perm used) :
    Alloc s used' free h :=
  { ha with
    perm := (hu.append_right free).trans ha.perm
    unpinned := fun x h0 hx => ha.unpinned x h0 fun hu' => hx (hu.mem_iff.2 hu') }

end Alloc

/-- The header's root page id follows the tree's. -/
theorem Alloc.setRoot {s : IndexStore K V} {used free : List Nat} {h : IndexFileHeader}
    (ha : Alloc s used free h) (root : Option Nat) :
    Alloc ((s.withMember { s.member with rootPageID := root }).setPage 0
      (.header { h with rootPageID := root })) used free { h with rootPageID := root } := by
  have hz : 0 ∉ used ++ free := by
    intro h0
    have := (ha.mem_iff 0).1 (List.mem_append.1 h0)
    omega
  have hne : ∀ x ∈ free, x ≠ 0 := by
    rintro x hx rfl
    exact hz (List.mem_append_right _ hx)
  refine ⟨by simp, rfl, ha.next_pos, ?_, ha.perm, ?_, ha.unpinned⟩
  · refine ha.chain.frame fun x hx => ?_
    simp [hne x hx]
  · intro x hx
    have hp : (1 : Nat) ≤ x := le_trans ha.next_pos hx
    have h0 : x ≠ 0 := by omega
    simpa [h0] using ha.fresh x hx

/-! ## `newIndexPage` and `deleteIndexPage` -/

theorem newIndexPage_spec {s : IndexStore K V} {used free : List Nat} {h : IndexFileHeader}
    (ha : Alloc s used free h) :
    wp exec newIndexPage (fun q s' => ∃ free' h', q ∉ used ∧ q ≠ 0 ∧ s.pins q = 0 ∧
      s'.page = Function.update (Function.update s.page 0 (some (.header h'))) q (some .zero) ∧
      s'.pins = Function.update s.pins q 1 ∧ s'.member = s.member ∧ Alloc s' (q :: used) free' h') s := by
  have hnd := List.nodup_append.1 ha.nodup
  rcases free with _ | ⟨f, free⟩
  -- no free page: the file grows by one
  · have hh : h.freePageListHeader = none := ha.chain
    have hq0 : h.nextPageID ≠ 0 := by have := ha.next_pos; omega
    have hqu : h.nextPageID ∉ used := fun hu => by have := ha.bounds hu; omega
    have hpin := ha.unpinned _ hq0 hqu
    have hfr := ha.fresh _ le_rfl
    simp only [newIndexPage, wp_bind, wp_fetchPage, wp_getHeader, wp_unpinPage, wp_pure, setPins_page, ha.header,
      Option.some.injEq, IndexFilePage.header.injEq, exists_eq_left', hh, wp_appendNewPage, wp_setData, setPage_page,
      setPage_pins, setPins_pins]
    refine ⟨⟨_, rfl⟩, hfr, ⟨.header h, by simp [Ne.symm hq0, ha.header]⟩, by simp [Ne.symm hq0], ?_⟩
    refine ⟨[], { h with nextPageID := h.nextPageID + 1 }, hqu, hq0, hpin, ?_, ?_, rfl, ?_⟩
    · rw [Function.update_comm (Ne.symm hq0), hh]
      rfl
    · funext x
      rcases eq_or_ne x h.nextPageID with rfl | hx
      · simp [hq0, hpin]
      · rcases eq_or_ne x 0 with rfl | h0 <;> simp [*]
    · refine ⟨by simp [Ne.symm hq0, hh], ha.root, by simp, ?_, ?_, ?_, ?_⟩
      · exact hh
      · obtain ⟨n, hn⟩ : ∃ n, h.nextPageID = n + 1 := ⟨h.nextPageID - 1, by omega⟩
        have hp := ha.perm
        simp only [hn, List.append_nil, Nat.add_sub_cancel] at hp ⊢
        rw [List.range'_concat, one_mul]
        exact (hp.cons (n + 1)).trans (by rw [add_comm n 1]; exact (List.perm_append_singleton _ _).symm)
      · intro x hx
        have h1 : x ≠ h.nextPageID := by simp at hx; omega
        have h2 : x ≠ 0 := by simp at hx; omega
        simpa [h1, h2] using ha.fresh x (by simp at hx; omega)
      · intro x h0 hx
        simp only [List.mem_cons, not_or] at hx
        simpa [h0, hx.1] using ha.unpinned x h0 hx.2
  -- the first free page is taken off the list
  · obtain ⟨hh, fp, hf, hc⟩ := ha.chain
    have hfin : f ∈ f :: free := List.mem_cons_self
    have hf0 : f ≠ 0 := by
      have := (ha.mem_iff f).1 (.inr hfin)
      omega
    have hfu : f ∉ used := fun hu => hnd.2.2 f hu f hfin rfl
    have hpin := ha.unpinned _ hf0 hfu
    simp only [newIndexPage, wp_bind, wp_fetchPage, wp_getHeader, wp_unpinPage, wp_pure, setPins_page, ha.header,
      Option.some.injEq, IndexFilePage.header.injEq, exists_eq_left', hh, wp_setData, setPage_page, setPage_pins,
      setPins_pins, wp_getFreePage, hf, IndexFilePage.free.injEq]
    refine ⟨⟨_, rfl⟩, ⟨_, rfl⟩, ⟨_, rfl⟩, ⟨.free fp, by simp [hf0, hf]⟩, by simp [Ne.symm hf0], ?_⟩
    refine ⟨free, { h with freePageListHeader := fp.nextFreePageID }, hfu, hf0, hpin, rfl, ?_, rfl, ?_⟩
    · funext x
      rcases eq_or_ne x f with rfl | hx
      · simp [hf0, hpin]
      · rcases eq_or_ne x 0 with rfl | h0 <;> simp [*]
    · have hne : ∀ x ∈ free, x ≠ 0 ∧ x ≠ f := by
        intro x hx
        have := (ha.mem_iff x).1 (.inr (List.mem_cons_of_mem _ hx))
        refine ⟨by omega, ?_⟩
        rintro rfl
        exact (List.nodup_cons.1 hnd.2.1).1 hx
      refine ⟨by simp [Ne.symm hf0], ha.root, ha.next_pos, ?_, ?_, ?_, ?_⟩
      · refine hc.frame fun x hx => ?_
        simp [(hne x hx).1, (hne x hx).2]
      · exact List.perm_middle.symm.trans ha.perm
      · intro x hx
        have hb := (ha.mem_iff f).1 (.inr hfin)
        have h1 : x ≠ f := by rintro rfl; exact absurd hb.2 (not_lt.2 hx)
        have h2 : x ≠ 0 := by rintro rfl; exact absurd (le_trans ha.next_pos hx) (by omega)
        simpa [h1, h2] using ha.fresh x hx
      · intro x h0 hx
        simp only [List.mem_cons, not_or] at hx
        simpa [h0, hx.1] using ha.unpinned x h0 hx.2

/-- A page of the tree goes to the free list if nobody has pinned it, and stays
where it is otherwise. -/
theorem deleteIndexPage_spec {s : IndexStore K V} {used free : List Nat} {h : IndexFileHeader} {x : Nat}
    (ha : Alloc s used free h) (hx : x ∈ used) (hn : ∃ n, (s.page x).bind IndexFilePage.node = some n) :
    wp exec (deleteIndexPage x) (fun _ s' => s'.pins = s.pins ∧ s'.member = s.member ∧
      (∀ y, y ≠ 0 → y ≠ x → s'.page y = s.page y) ∧
      ∃ used' free' h', Alloc s' used' free' h' ∧ used.Perm ((if s.pins x = 0 then [x] else []) ++ used')) s := by
  obtain ⟨n, hn⟩ := hn
  obtain ⟨pg, hpg, hn⟩ := Option.bind_eq_some_iff.1 hn
  have hb := ha.bounds hx
  have hx0 : x ≠ 0 := ha.ne_zero hx
  have h0x : (0 : Nat) ≠ x := Ne.symm hx0
  have hcond : ¬ (x < 1 ∨ h.nextPageID ≤ x) := by omega
  have hpins : Function.update (Function.update (Function.update (Function.update s.pins 0 (s.pins 0 + 1)) x
      (s.pins x + 1)) x (s.pins x)) 0 (s.pins 0) = s.pins := by
    funext y
    rcases eq_or_ne y 0 with rfl | hy0
    · simp
    · rcases eq_or_ne y x with rfl | hyx <;> simp [*]
  simp only [deleteIndexPage, wp_bind, wp_fetchPage, wp_getHeader, setPins_page, setPins_pins, ha.header,
    Option.some.injEq, IndexFilePage.header.injEq, exists_eq_left', wp_ite, if_neg hcond, wp_getPinCount, hpg,
    Function.update_self, Function.update_of_ne hx0, wp_unpinPage, wp_pure, wp_getData]
  refine ⟨⟨_, rfl⟩, ⟨_, rfl⟩, ⟨_, rfl⟩, ?_⟩
  -- a page that is pinned is left as it is
  by_cases hp : s.pins x = 0
  · have hone : ¬ s.pins x + 1 ≠ 1 := by omega
    have key : wp exec (do
          setData x (.free { nextFreePageID := h.freePageListHeader })
          setData 0 (.header { h with freePageListHeader := some x })
          unpinPage x true
          unpinPage 0 true
          pure true) (fun _ s' => s'.pins = s.pins ∧ s'.member = s.member ∧
        (∀ y, y ≠ 0 → y ≠ x → s'.page y = s.page y) ∧
        ∃ used' free' h', Alloc s' used' free' h' ∧ used.Perm ((if s.pins x = 0 then [x] else []) ++ used'))
        ((s.setPins 0 (s.pins 0 + 1)).setPins x (s.pins x + 1)) := by
      simp only [wp_bind, wp_setData, wp_unpinPage, wp_pure, setPage_page, setPage_pins, setPins_page, setPins_pins]
      refine ⟨⟨_, hpg⟩, ⟨.header h, by simp [h0x, ha.header]⟩, by simp, by simp [h0x], ?_, rfl, ?_, ?_⟩
      · simpa [h0x] using hpins
      · intro y hy0 hyx
        simp [hy0, hyx]
      · have hnd := List.nodup_append.1 ha.nodup
        have hfx : x ∉ free := fun hf => hnd.2.2 x hx x hf rfl
        refine ⟨used.erase x, x :: free, { h with freePageListHeader := some x }, ?_, ?_⟩
        · have hne : ∀ y ∈ free, y ≠ 0 ∧ y ≠ x := by
            intro y hy
            have := (ha.mem_iff y).1 (.inr hy)
            refine ⟨by omega, ?_⟩
            rintro rfl
            exact hfx hy
          refine ⟨by simp, ha.root, ha.next_pos, ?_, ?_, ?_, ?_⟩
          · refine ⟨rfl, { nextFreePageID := h.freePageListHeader }, by simp [hx0], ?_⟩
            refine ha.chain.frame fun y hy => ?_
            simp [hne y hy]
          · refine List.Perm.trans ?_ ha.perm
            exact List.perm_middle.trans (((List.perm_cons_erase hx).symm.append_right free))
          · intro y hy
            have hp1 := ha.next_pos
            have h1 : y ≠ 0 := by simp at hy; omega
            have h2 : y ≠ x := by simp at hy; omega
            simpa [h1, h2] using ha.fresh y hy
          · intro y h0 hy
            rcases eq_or_ne y x with rfl | hyx
            · simp [hx0, hp]
            · have : y ∉ used := fun hu => hy ((List.mem_erase_of_ne hyx).2 hu)
              simpa [h0, hyx] using ha.unpinned y h0 this
        · simpa [hp] using List.perm_cons_erase hx
    rw [if_neg hone]
    -- only a leaf or an internal page is a page of the tree
    rcases pg with _ | _ | _ | p | p
    · cases hn
    · cases hn
    · cases hn
    · exact key
    · exact key
  · have hone : s.pins x + 1 ≠ 1 := by omega
    rw [if_pos hone]
    refine ⟨by simp, by simp [h0x], ?_, rfl, by simp, used, free, h, ?_, by simp [hp]⟩
    · simpa [h0x] using hpins
    · refine ha.frame rfl (fun _ _ => rfl) fun y _ _ => ?_
      have := congrFun hpins y
      simpa [h0x] using this

end MisakiDB
