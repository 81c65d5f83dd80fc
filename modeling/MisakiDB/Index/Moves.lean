import MisakiDB.Index.Split
/-!
# The moves between two pages

A merge moves all entries of a page to the page before it, a borrowing one entry, from
either side. Each move is told once: the entries the two pages have afterwards, and which
children have another parent.
-/

namespace MisakiDB

open Prog PageStore

variable {K V : Type}

theorem last_of_two {α : Type} {es : List α} (h : 2 ≤ es.length) : ∃ X e, es = X ++ [e] ∧ X ≠ [] := by
  obtain ⟨X, e, rfl⟩ := (List.eq_nil_or_concat es).resolve_left (List.ne_nil_of_length_pos (by omega))
  refine ⟨X, e, by simp, ?_⟩
  rintro rfl
  simp at h

theorem two_firsts {α : Type} {es : List α} (h : 2 ≤ es.length) : ∃ e f Y, es = e :: f :: Y := by
  rcases es with _ | ⟨e, _ | ⟨f, Y⟩⟩
  · simp at h
  · simp at h
  · exact ⟨e, f, Y, rfl⟩

/-! ## Leaves -/

/-- What a move between two leaves leaves in the store: they are now `p` and `q`. -/
structure Shared (s s' : IndexStore K V) (l r : Nat) (p q : LeafPage K V) : Prop where
  left : s'.page l = some (.leaf p)
  right : s'.page r = some (.leaf q)
  rest : ∀ y, y ≠ l → y ≠ r → s'.page y = s.page y
  pins : s'.pins = s.pins
  member : s'.member = s.member

namespace LeafPage
variable {s : IndexStore K V} {l r : Nat} {p q : LeafPage K V}

theorem moveAllTo_shared (hp : s.page l = some (.leaf p)) (hq : s.page r = some (.leaf q)) (hlr : l ≠ r) :
    wp exec (moveAllTo r l) (fun _ s' =>
      Shared s s' l r { p with array := p.array ++ q.array, nextPageID := q.nextPageID } { q with array := [] }) s := by
  simp only [moveAllTo, wp_bind, wp_getLeaf, hq, Option.some.injEq, IndexFilePage.leaf.injEq, exists_eq_left', hp,
    wp_setLeaf, setPage_page, Function.update_of_ne (Ne.symm hlr), Function.update_of_ne hlr, Function.update_self]
  refine ⟨⟨_, rfl⟩, ⟨_, rfl⟩, ⟨_, rfl⟩, ?_, ?_, fun y h1 h2 => ?_, rfl, rfl⟩
  · simp [copyNFrom]
  · simp [Ne.symm hlr, setSize]
  · simp [h1, h2]

theorem moveLastToFrontOf_shared {X : List (K × V)} {e : K × V} (hp : s.page l = some (.leaf p))
    (hq : s.page r = some (.leaf q)) (hlr : l ≠ r) (hX : p.array = X ++ [e]) :
    wp exec (moveLastToFrontOf l r) (fun _ s' =>
      Shared s s' l r { p with array := X } { q with array := e :: q.array }) s := by
  simp only [moveLastToFrontOf, wp_bind, wp_getLeaf, hp, Option.some.injEq, IndexFilePage.leaf.injEq, exists_eq_left',
    wp_require, hX, List.getLast?_append, List.getLast?_singleton, Option.some_or, hq, wp_setLeaf, setPage_page,
    Function.update_of_ne hlr, List.dropLast_concat]
  refine ⟨⟨_, rfl⟩, ⟨_, rfl⟩, ?_, ?_, fun y h1 h2 => ?_, rfl, rfl⟩
  · simp
  · simp [Ne.symm hlr, copyFirstFrom]
  · simp [h1, h2]

theorem moveFirstToEndOf_shared {Y : List (K × V)} {e : K × V} (hp : s.page l = some (.leaf p))
    (hq : s.page r = some (.leaf q)) (hlr : l ≠ r) (hY : q.array = e :: Y) :
    wp exec (moveFirstToEndOf r l) (fun _ s' =>
      Shared s s' l r { p with array := p.array ++ [e] } { q with array := Y }) s := by
  simp only [moveFirstToEndOf, wp_bind, wp_getLeaf, hq, Option.some.injEq, IndexFilePage.leaf.injEq, exists_eq_left',
    wp_require, hY, List.head?_cons, hp, wp_setLeaf, setPage_page, Function.update_of_ne (Ne.symm hlr), List.tail_cons]
  refine ⟨⟨_, rfl⟩, ⟨_, rfl⟩, ?_, ?_, fun y h1 h2 => ?_, rfl, rfl⟩
  · simp [hlr, copyLastFrom]
  · simp
  · simp [h1, h2]

end LeafPage

/-! ## Internal pages -/

/-- Two internal pages, apart from each other and from their children. -/
structure InternalPair (s : IndexStore K V) (l r : Nat) (p q : InternalPage K) : Prop where
  left : s.page l = some (.internal p)
  right : s.page r = some (.internal q)
  leftID : p.pageID = l
  rightID : q.pageID = r
  nodup : (l :: r :: (p.array.map (·.2) ++ q.array.map (·.2))).Nodup
  kids : ∀ c ∈ p.array.map (·.2) ++ q.array.map (·.2),
    ∃ n, (s.page c).bind IndexFilePage.node = some n ∧ n.pageID = c

/-- What a move between two internal pages leaves in the store: their entries are now
`X` and `Y`, and the children `C` have the parent `a`. -/
structure Swapped (s s' : IndexStore K V) (l r : Nat) (p q : InternalPage K) (X Y : List (K × Nat)) (C : List Nat)
    (a : Nat) : Prop where
  left : s'.page l = some (.internal { p with array := X })
  right : s'.page r = some (.internal { q with array := Y })
  sub : ∀ c ∈ C, c ∈ p.array.map (·.2) ++ q.array.map (·.2)
  moved : ∀ c ∈ C, s'.page c = (s.page c).map (IndexFilePage.setParentPageID (some a))
  rest : ∀ y, y ≠ l → y ≠ r → y ∉ C → s'.page y = s.page y
  pins : s'.pins = s.pins
  member : s'.member = s.member

namespace InternalPage
variable {s : IndexStore K V} {l r : Nat} {p q : InternalPage K}

theorem setKeyAt_eq {X Y : List (K × Nat)} {e : K × Nat} {n : Nat} (hp : p.array = X ++ e :: Y)
    (hn : n = X.length) (key : K) : p.setKeyAt n key = some { p with array := X ++ (key, e.2) :: Y } := by
  subst hn
  rw [setKeyAt, getSize, hp, if_pos (by simp)]
  simp [List.modify_eq_set_getElem?]

theorem keyAt_eq {X Y : List (K × Nat)} {e : K × Nat} {n : Nat} (hp : p.array = X ++ e :: Y)
    (hn : n = X.length) : p.keyAt n = some e.1 := by
  simp [keyAt, hp, hn]

theorem valueAt_eq {X Y : List (K × Nat)} {e : K × Nat} {n : Nat} (hp : p.array = X ++ e :: Y)
    (hn : n = X.length) : p.valueAt n = some e.2 := by
  simp [valueAt, hp, hn]

end InternalPage

namespace InternalPair
variable {s : IndexStore K V} {l r : Nat} {p q : InternalPage K}

theorem ne (h : InternalPair s l r p q) : l ≠ r := by
  rintro rfl
  simpa using h.nodup

/-- The children are none of the two pages. -/
theorem apart (h : InternalPair s l r p q) {c : Nat} (hc : c ∈ p.array.map (·.2) ++ q.array.map (·.2)) :
    c ≠ l ∧ c ≠ r := by
  obtain ⟨hl, hr⟩ := List.nodup_cons.1 h.nodup
  constructor
  · rintro rfl
    exact hl (List.mem_cons_of_mem _ hc)
  · rintro rfl
    exact (List.nodup_cons.1 hr).1 hc

theorem moveAllTo {e : K × Nat} {Y : List (K × Nat)} (h : InternalPair s l r p q) (hY : q.array = e :: Y) (k : K) :
    wp exec (InternalPage.moveAllTo r l k) (fun _ s' =>
      Swapped s s' l r p q (p.array ++ (k, e.2) :: Y) [] (q.array.map (·.2)) l) s := by
  have hlr := h.ne
  have hC : ((k, e.2) :: Y).map (·.2) = q.array.map (·.2) := by simp [hY]
  have hkids : ∀ c ∈ q.array.map (·.2), c ≠ l ∧ c ≠ r := fun c hc => h.apart (List.mem_append_right _ hc)
  simp only [InternalPage.moveAllTo, wp_bind, wp_getInternal, h.right, Option.some.injEq, IndexFilePage.internal.injEq,
    exists_eq_left', wp_require, InternalPage.setKeyAt_eq (X := []) (n := 0) hY rfl, wp_setInternal, List.nil_append]
  refine ⟨⟨_, rfl⟩, ?_⟩
  refine wp_conseq (InternalPage.copyNFrom_spec (p := p) _ (by simp [hlr, h.left]) ?_ fun c hc => ?_) ?_
  · rw [hC]
    refine h.nodup.sublist (.cons_cons _ (.cons _ ?_))
    exact List.sublist_append_right _ _
  · rw [hC] at hc
    obtain ⟨n, hn, -⟩ := h.kids c (List.mem_append_right _ hc)
    obtain ⟨pg, hpg, -⟩ := Option.bind_eq_some_iff.1 hn
    exact ⟨pg, by simp [(hkids c hc).2, hpg]⟩
  rintro - s2 ⟨h2l, h2kids, h2rest, h2pins, h2mem⟩
  rw [hC] at h2kids h2rest
  have hrq : r ∉ q.array.map (·.2) := fun hr => (hkids r hr).2 rfl
  refine ⟨⟨_, (h2rest r (Ne.symm hlr) hrq).trans (Function.update_self ..)⟩, ?_⟩
  refine ⟨?_, ?_, fun c hc => List.mem_append_right _ hc, fun c hc => ?_, fun y h1 h2 hc => ?_, h2pins, h2mem⟩
  · simpa [hlr] using h2l
  · simp [InternalPage.setSize]
  · simp [(hkids c hc).2, h2kids c hc, h.leftID]
  · simp [h2, h2rest y h1 hc]

theorem moveLastToFrontOf {e f : K × Nat} {X Y : List (K × Nat)} (h : InternalPair s l r p q)
    (hX : p.array = X ++ [f]) (hY : q.array = e :: Y) (k : K) :
    wp exec (InternalPage.moveLastToFrontOf l r k) (fun _ s' =>
      Swapped s s' l r p q X (f :: (k, e.2) :: Y) [f.2] r) s := by
  have hlr := h.ne
  have hfp : f.2 ∈ p.array.map (·.2) ++ q.array.map (·.2) := by simp [hX]
  obtain ⟨hfl, hfr⟩ := h.apart hfp
  obtain ⟨n, hn, hid⟩ := h.kids f.2 hfp
  simp only [InternalPage.moveLastToFrontOf, wp_bind, wp_getInternal, h.right, Option.some.injEq,
    IndexFilePage.internal.injEq, exists_eq_left', wp_require, InternalPage.setKeyAt_eq (X := []) (n := 0) hY rfl,
    wp_setInternal, List.nil_append, setPage_page, Function.update_of_ne hlr, h.left, hX, List.getLast?_append,
    List.getLast?_singleton, Option.some_or, List.dropLast_concat]
  refine ⟨⟨_, rfl⟩, ?_⟩
  refine wp_conseq (InternalPage.copyFirstFrom_spec (p := { q with array := (k, e.2) :: Y }) (n := n)
    (Function.update_self ..) hfr (by simpa [hfr] using hn) hid) ?_
  rintro - s2 ⟨h2page, h2pins, h2mem⟩
  have h2l : s2.page l = some (.internal p) := by simp [h2page, Ne.symm hfl, hlr, h.left]
  refine ⟨⟨_, h2l⟩, ?_⟩
  refine ⟨by simp, ?_, fun c hc => ?_, fun c hc => ?_, fun y h1 h2 hc => ?_, h2pins, h2mem⟩
  · simp [h2page, Ne.symm hfr, Ne.symm hlr, InternalPage.prepend]
  · rw [List.mem_singleton.1 hc]
    exact hfp
  · rw [List.mem_singleton.1 hc]
    simp [h2page, hfl, hfr, h.rightID]
  · simp only [List.mem_singleton] at hc
    simp [h2page, h1, h2, hc]

theorem moveFirstToEndOf {e : K × Nat} {Y : List (K × Nat)} (h : InternalPair s l r p q) (hY : q.array = e :: Y)
    (k : K) : wp exec (InternalPage.moveFirstToEndOf r l k) (fun _ s' =>
      Swapped s s' l r p q (p.array ++ [(k, e.2)]) Y [e.2] l) s := by
  have hlr := h.ne
  have heq : e.2 ∈ p.array.map (·.2) ++ q.array.map (·.2) := by simp [hY]
  obtain ⟨hel, her⟩ := h.apart heq
  obtain ⟨n, hn, hid⟩ := h.kids e.2 heq
  simp only [InternalPage.moveFirstToEndOf, wp_bind, wp_getInternal, h.right, Option.some.injEq,
    IndexFilePage.internal.injEq, exists_eq_left', wp_require, hY, List.head?_cons, wp_setInternal]
  apply wp_conseq (InternalPage.copyLastFrom_spec h.left hel hn hid)
  rintro - s2 ⟨h2page, h2pins, h2mem⟩
  have h2l : s2.page l = some (.internal (p.append e)) := by simp [h2page, Ne.symm hel]
  have h2r : s2.page r = some (.internal q) := by simp [h2page, Ne.symm her, Ne.symm hlr, h.right]
  simp only [h2l, Option.some.injEq, IndexFilePage.internal.injEq, exists_eq_left', setPage_page,
    InternalPage.setKeyAt_eq (p := p.append e) (n := (p.append e).getSize - 1) (X := p.array) (Y := []) (e := e) rfl
      (by simp [InternalPage.append, InternalPage.getSize]), Function.update_of_ne (Ne.symm hlr), h2r, List.tail_cons]
  refine ⟨⟨_, rfl⟩, ⟨_, rfl⟩, ?_⟩
  refine ⟨?_, by simp, fun c hc => ?_, fun c hc => ?_, fun y h1 h2 hc => ?_, h2pins, h2mem⟩
  · simp [hlr, InternalPage.append]
  · rw [List.mem_singleton.1 hc]
    exact heq
  · rw [List.mem_singleton.1 hc]
    simp [h2page, hel, her, h.leftID]
  · simp only [List.mem_singleton] at hc
    simp [h2page, h1, h2, hc]

end InternalPair

end MisakiDB
