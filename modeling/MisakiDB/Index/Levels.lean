import MisakiDB.Index.FreeList
import Mathlib.Order.WithBot
import Mathlib.Data.List.Flatten
/-!
# The levels of the tree

A level lists the pages at one depth, each under the lower bound of the keys
below it (`⊥` at the left edge). `row` reads an internal page as a piece of the
level below it; `Above s L Ls` says that the levels `Ls`, bottom first, are
internal pages that lead from the root down to exactly the level `L`, and that
every page of `L` and `Ls` names the page above it as its parent.

Nothing here orders keys: a restructuring at one level leaves the level below it
as it was, whatever the keys are.
-/

namespace MisakiDB

variable {K V : Type}

open Prog PageStore

/-- A page with the lower bound of its keys. -/
abbrev Node (K : Type) := WithBot K × Nat

abbrev Level (K : Type) := List (Node K)

abbrev ids (L : Level K) : List Nat := L.map (·.2)

/-! ## Internal pages as pieces of a level -/

/-- An entry under its own key. -/
def cell (e : K × Nat) : Node K := ((e.1 : WithBot K), e.2)

/-- The children of an internal page with lower bound `lo`: the first key is not looked at. -/
def row (lo : WithBot K) : List (K × Nat) → Level K
  | [] => []
  | e :: es => (lo, e.2) :: es.map cell

@[simp] theorem row_nil (lo : WithBot K) : row lo ([] : List (K × Nat)) = [] := rfl

@[simp] theorem row_cons (lo : WithBot K) (e : K × Nat) (es : List (K × Nat)) :
    row lo (e :: es) = (lo, e.2) :: es.map cell := rfl

@[simp] theorem ids_cells (es : List (K × Nat)) : ids (es.map cell) = es.map (·.2) := by
  simp [cell, Function.comp_def]

@[simp] theorem ids_row (lo : WithBot K) (es : List (K × Nat)) : ids (row lo es) = es.map (·.2) := by
  cases es with
  | nil => rfl
  | cons e es => simpa using ids_cells es

@[simp] theorem length_row (lo : WithBot K) (es : List (K × Nat)) : (row lo es).length = es.length := by
  cases es <;> simp

theorem row_append {lo : WithBot K} {es : List (K × Nat)} (h : es ≠ []) (fs : List (K × Nat)) :
    row lo (es ++ fs) = row lo es ++ fs.map cell := by
  cases es with
  | nil => exact absurd rfl h
  | cons e es => simp

theorem row_insert {lo : WithBot K} {X Y : List (K × Nat)} {e f : K × Nat} :
    row lo (X ++ e :: f :: Y) = row lo (X ++ [e]) ++ cell f :: Y.map cell := by
  have h : X ++ e :: f :: Y = (X ++ [e]) ++ f :: Y := by simp
  rw [h, row_append (by simp), List.map_cons]

/-- A page whose lower bound is its first key is read off as it stands. -/
theorem row_own (e : K × Nat) (es : List (K × Nat)) : row (e.1 : WithBot K) (e :: es) = (e :: es).map cell := rfl

/-- Where a child stands in the page that holds it. -/
theorem row_split {lo : WithBot K} {es : List (K × Nat)} {A B : Level K} {n : Node K} (h : row lo es = A ++ n :: B) :
    ∃ X k Y, es = X ++ (k, n.2) :: Y ∧ B = Y.map cell ∧ row lo (X ++ [(k, n.2)]) = A ++ [n] := by
  cases es with
  | nil => simp at h
  | cons e es =>
    rw [row_cons] at h
    rcases A with _ | ⟨a, A⟩
    · obtain ⟨rfl, rfl⟩ := List.cons.inj h
      exact ⟨[], e.1, es, rfl, rfl, rfl⟩
    · obtain ⟨rfl, h1⟩ := List.cons.inj h
      obtain ⟨X, Y', rfl, rfl, h2⟩ := List.map_eq_append_iff.1 h1
      obtain ⟨f, Y, rfl, rfl, rfl⟩ := List.map_eq_cons_iff.1 h2
      exact ⟨e :: X, f.1, Y, rfl, rfl, by simp [cell]⟩

section Store
variable {s s' : IndexStore K V}

def children (s : IndexStore K V) (n : Node K) : Level K :=
  match s.page n.2 with
  | some (.internal p) => row n.1 p.array
  | _ => []

/-- The children of a page. -/
def kids (s : IndexStore K V) (x : Nat) : List Nat :=
  match s.page x with
  | some (.internal p) => p.array.map (·.2)
  | _ => []

/-- The level below. -/
def below (s : IndexStore K V) (L : Level K) : Level K := L.flatMap (children s)

theorem children_eq {n : Node K} {p : InternalPage K} (h : s.page n.2 = some (.internal p)) :
    children s n = row n.1 p.array := by
  simp [children, h]

@[simp] theorem below_nil : below s [] = [] := rfl

@[simp] theorem below_cons (n : Node K) (L : Level K) : below s (n :: L) = children s n ++ below s L := by
  simp [below]

@[simp] theorem below_append (A B : Level K) : below s (A ++ B) = below s A ++ below s B := by
  simp [below]

/-- Where a page of a level stands in the level above. -/
theorem below_split {L A B : Level K} {n : Node K} (h : below s L = A ++ n :: B) :
    ∃ A' m B' C D, L = A' ++ m :: B' ∧ children s m = C ++ n :: D ∧ A = below s A' ++ C ∧ B = D ++ below s B' := by
  induction L generalizing A with
  | nil => simp at h
  | cons m L ih =>
    rw [below_cons] at h
    rcases List.append_eq_append_iff.1 h with ⟨E, rfl, h1⟩ | ⟨E, hm, h1⟩
    · obtain ⟨A', m', B', C, D, rfl, hc, rfl, rfl⟩ := ih h1
      exact ⟨m :: A', m', B', C, D, rfl, hc, by simp, rfl⟩
    · rcases E with _ | ⟨n', E⟩
      · obtain ⟨A', m', B', C, D, rfl, hc, hA, rfl⟩ := ih (A := []) (by simpa using h1.symm)
        have hA := List.nil_eq_append_iff.1 hA
        exact ⟨m :: A', m', B', C, D, rfl, hc, by simp [hm, hA], rfl⟩
      · obtain ⟨rfl, rfl⟩ := List.cons.inj h1
        exact ⟨[], m, L, A, E, rfl, hm, rfl, rfl⟩

/-! ## What a step may change -/

/-- The page differs in its parent at most. -/
def SameBody (s s' : IndexStore K V) (x : Nat) : Prop :=
  (s'.page x).map (IndexFilePage.setParentPageID none) = (s.page x).map (IndexFilePage.setParentPageID none)

@[simp] theorem setParentPageID_twice (a b : Option Nat) (pg : IndexPage K V) :
    (pg.setParentPageID a).setParentPageID b = pg.setParentPageID b := by
  cases pg <;> rfl

theorem node_setParentPageID {pg : IndexPage K V} {n : BPlusTreePage} (hn : pg.node = some n) (a : Option Nat) :
    (pg.setParentPageID a).node = some { n with parentPageID := a } := by
  cases pg <;> simp only [IndexFilePage.node, reduceCtorEq, Option.some.injEq] at hn <;> subst hn <;> rfl

theorem SameBody.rfl {x : Nat} : SameBody s s x := Eq.refl _

theorem SameBody.trans {s'' : IndexStore K V} {x : Nat} (h : SameBody s s' x) (h' : SameBody s' s'' x) :
    SameBody s s'' x := Eq.trans h' h

theorem SameBody.of_eq {x : Nat} (h : s'.page x = s.page x) : SameBody s s' x := by
  rw [SameBody, h]

theorem SameBody.internal {x : Nat} (h : SameBody s s' x) {p : InternalPage K} (hp : s.page x = some (.internal p)) :
    ∃ a, s'.page x = some (.internal { p with parentPageID := a }) := by
  rw [SameBody, hp] at h
  obtain ⟨pg, hpg, hb⟩ := Option.map_eq_some_iff.1 h
  cases pg with
  | internal q =>
    obtain ⟨a, b, c, d⟩ := q
    obtain ⟨rfl, rfl, rfl⟩ : a = p.pageID ∧ c = p.maxSize ∧ d = p.array := by
      simpa using hb
    exact ⟨b, hpg⟩
  | _ => simp [IndexFilePage.setParentPageID] at hb

theorem SameBody.leaf {x : Nat} (h : SameBody s s' x) {p : LeafPage K V} (hp : s.page x = some (.leaf p)) :
    ∃ a, s'.page x = some (.leaf { p with parentPageID := a }) := by
  rw [SameBody, hp] at h
  obtain ⟨pg, hpg, hb⟩ := Option.map_eq_some_iff.1 h
  cases pg with
  | leaf q =>
    obtain ⟨a, b, c, d, e⟩ := q
    obtain ⟨rfl, rfl, rfl, rfl⟩ : a = p.pageID ∧ c = p.maxSize ∧ d = p.nextPageID ∧ e = p.array := by
      simpa using hb
    exact ⟨b, hpg⟩
  | _ => simp [IndexFilePage.setParentPageID] at hb

/-- What a reading that does not look at the parent sees is the same. -/
theorem SameBody.reads {α : Type} {x : Nat} {f : Option (IndexPage K V) → α} (h : SameBody s s' x)
    (hf : ∀ o, f (o.map (IndexFilePage.setParentPageID none)) = f o) : f (s'.page x) = f (s.page x) := by
  rw [← hf, h, hf]

theorem children_congr {n : Node K} (h : SameBody s s' n.2) : children s' n = children s n :=
  h.reads (f := fun o : Option (IndexPage K V) => match o with
    | some (.internal p) => row n.1 p.array
    | _ => []) fun o => by rcases o with _ | _ | _ | _ | _ | _ <;> rfl

theorem kids_congr {x : Nat} (h : SameBody s s' x) : kids s' x = kids s x :=
  h.reads (f := fun o : Option (IndexPage K V) => match o with
    | some (.internal p) => p.array.map Prod.snd
    | _ => []) fun o => by rcases o with _ | _ | _ | _ | _ | _ <;> rfl

theorem below_congr {L : Level K} (h : ∀ x ∈ ids L, SameBody s s' x) : below s' L = below s L :=
  List.flatMap_congr fun n hn => children_congr (h n.2 (List.mem_map_of_mem hn))

/-- Pages outside `R` keep their content, and outside `M` their parent too. -/
structure Changes (s s' : IndexStore K V) (M R : List Nat) : Prop where
  page : ∀ x, x ∉ M → x ∉ R → s'.page x = s.page x
  body : ∀ x, x ∉ R → SameBody s s' x
  leafMax : s'.member.leafMaxSize = s.member.leafMaxSize
  internalMax : s'.member.internalMaxSize = s.member.internalMaxSize

theorem Changes.trans {s'' : IndexStore K V} {M R M' R' M'' R'' : List Nat} (h : Changes s s' M R)
    (h' : Changes s' s'' M' R') (hM : ∀ x, x ∈ M ∨ x ∈ M' → x ∈ M'' ∨ x ∈ R'') (hR : ∀ x, x ∈ R ∨ x ∈ R' → x ∈ R'') :
    Changes s s'' M'' R'' := by
  refine ⟨fun x hm hr => ?_, fun x hr => ?_, h'.leafMax.trans h.leafMax, h'.internalMax.trans h.internalMax⟩
  · have h1 : x ∉ R ∧ x ∉ R' := ⟨fun hx => hr (hR x (.inl hx)), fun hx => hr (hR x (.inr hx))⟩
    have h2 : x ∉ M ∧ x ∉ M' :=
      ⟨fun hx => (hM x (.inl hx)).elim hm hr, fun hx => (hM x (.inr hx)).elim hm hr⟩
    rw [h'.page x h2.2 h1.2, h.page x h2.1 h1.1]
  · exact (h.body x fun hx => hr (hR x (.inl hx))).trans (h'.body x fun hx => hr (hR x (.inr hx)))

/-! ## Parents -/

/-- A tree page that knows its own id, and names `a` as its parent. -/
def HasParent (s : IndexStore K V) (x : Nat) (a : Option Nat) : Prop :=
  ∃ n, (s.page x).bind IndexFilePage.node = some n ∧ n.pageID = x ∧ n.parentPageID = a

theorem HasParent.congr {x : Nat} {a : Option Nat} (h : HasParent s x a) (hp : s'.page x = s.page x) :
    HasParent s' x a := by
  rw [HasParent, hp]
  exact h

theorem hasParent_leaf {x : Nat} {p : LeafPage K V} (hp : s.page x = some (.leaf p)) {a : Option Nat} :
    HasParent s x a ↔ p.pageID = x ∧ p.parentPageID = a := by
  simp [HasParent, hp]

theorem hasParent_internal {x : Nat} {p : InternalPage K} (hp : s.page x = some (.internal p)) {a : Option Nat} :
    HasParent s x a ↔ p.pageID = x ∧ p.parentPageID = a := by
  simp [HasParent, hp]

/-- Setting the parent of a tree page. -/
theorem HasParent.set {x : Nat} {a b : Option Nat} (h : HasParent s x a) {pg : IndexPage K V}
    (hp : s.page x = some pg) (hs : s'.page x = some (pg.setParentPageID b)) : HasParent s' x b := by
  obtain ⟨n, hn, hx, -⟩ := h
  rw [hp] at hn
  exact ⟨{ n with parentPageID := b }, by rw [hs]; exact node_setParentPageID hn b, hx, rfl⟩

theorem HasParent.unique {x : Nat} {a b : Option Nat} (h : HasParent s x a) (h' : HasParent s x b) : a = b := by
  obtain ⟨n, hn, -, rfl⟩ := h
  obtain ⟨n', hn', -, rfl⟩ := h'
  rw [hn] at hn'
  cases hn'
  rfl

/-! ## The levels above a level -/

/-- The capacity of an internal page. -/
def internalMax (s : IndexStore K V) : Nat := max s.member.internalMaxSize 4

/-- The size an internal page keeps: at least two children in the root, half the
capacity elsewhere, and less than the capacity. -/
def InternalFits (s : IndexStore K V) (root : Prop) (size : Nat) : Prop :=
  2 ≤ size ∧ (¬ root → internalMax s / 2 ≤ size) ∧ size < internalMax s

variable [Inhabited K]

/-- The first key is the lower bound of the page, or was never written at the left edge. -/
def FirstKey (lo : WithBot K) (es : List (K × Nat)) : Prop :=
  ∀ e ∈ es.head?, lo = (e.1 : WithBot K) ∨ (lo = ⊥ ∧ e.1 = default)

theorem FirstKey.head {lo : WithBot K} {X Y Y' : List (K × Nat)} {e : K × Nat} (h : FirstKey lo (X ++ e :: Y)) :
    FirstKey lo (X ++ e :: Y') := by
  cases X <;> exact h

theorem FirstKey.append {lo : WithBot K} {X : List (K × Nat)} (h : X ≠ []) (Y : List (K × Nat)) :
    FirstKey lo (X ++ Y) ↔ FirstKey lo X := by
  cases X with
  | nil => exact absurd rfl h
  | cons e X => exact Iff.rfl

theorem FirstKey.own (e : K × Nat) (Y : List (K × Nat)) : FirstKey (e.1 : WithBot K) (e :: Y) := by
  intro f hf
  obtain rfl : e = f := by simpa using hf
  exact .inl rfl

/-- The pages of `L` are internal, of allowed sizes, and parents of their children. -/
def Linked (s : IndexStore K V) (fits : Nat → Nat → Prop) (L : Level K) : Prop :=
  ∀ n ∈ L, ∃ p, s.page n.2 = some (.internal p) ∧ p.pageID = n.2 ∧ p.maxSize = internalMax s ∧
    fits n.2 p.array.length ∧ (∀ e ∈ p.array, HasParent s e.2 (some n.2)) ∧ FirstKey n.1 p.array

theorem Linked.congr {fits : Nat → Nat → Prop} {L : Level K} (h : Linked s fits L)
    (hb : ∀ x ∈ ids L, SameBody s s' x) (hm : s'.member.internalMaxSize = s.member.internalMaxSize)
    (hc : ∀ x ∈ ids (below s L), ∀ a, HasParent s x a → HasParent s' x a) : Linked s' fits L := by
  intro n hn
  obtain ⟨p, hp, hid, hmax, hf, hk⟩ := h n hn
  obtain ⟨a, ha⟩ := (hb n.2 (List.mem_map_of_mem hn)).internal hp
  refine ⟨_, ha, hid, by simpa [internalMax, hm] using hmax, hf, fun e he => hc _ ?_ _ (hk.1 e he), hk.2⟩
  have : e.2 ∈ ids (children s n) := by
    rw [children_eq hp, ids_row]
    exact List.mem_map_of_mem he
  obtain ⟨c, hc, hce⟩ := List.mem_map.1 this
  exact List.mem_map.2 ⟨c, List.mem_flatMap.2 ⟨n, hn, hc⟩, hce⟩

theorem linked_append {fits : Nat → Nat → Prop} {A B : Level K} :
    Linked s fits (A ++ B) ↔ Linked s fits A ∧ Linked s fits B := List.forall_mem_append

theorem linked_cons {fits : Nat → Nat → Prop} {n : Node K} {L : Level K} :
    Linked s fits (n :: L) ↔ Linked s fits [n] ∧ Linked s fits L :=
  linked_append (A := [n])

theorem Linked.mono {fits fits' : Nat → Nat → Prop} {L : Level K} (h : Linked s fits L)
    (hf : ∀ x ∈ ids L, ∀ size, fits x size → fits' x size) : Linked s fits' L := by
  intro n hn
  obtain ⟨p, hp, hid, hmax, hs, hk⟩ := h n hn
  exact ⟨p, hp, hid, hmax, hf _ (List.mem_map_of_mem hn) _ hs, hk⟩

/-- One page of a linked level is replaced by others. -/
theorem Linked.splice {fits fits' : Nat → Nat → Prop} {A N B : Level K} {m : Node K} (h : Linked s fits (A ++ m :: B))
    (hb : ∀ x ∈ ids A ++ ids B, SameBody s s' x) (hm : s'.member.internalMaxSize = s.member.internalMaxSize)
    (hc : ∀ x ∈ ids (below s A) ++ ids (below s B), ∀ a, HasParent s x a → HasParent s' x a)
    (hf : ∀ x ∈ ids A ++ ids B, ∀ size, fits x size → fits' x size) (hN : Linked s' fits' N) :
    Linked s' fits' (A ++ N ++ B) ∧ below s' (A ++ N ++ B) = below s A ++ below s' N ++ below s B := by
  rw [linked_append, linked_cons] at h
  obtain ⟨hA, -, hB⟩ := h
  simp only [List.forall_mem_append] at hb hc hf
  refine ⟨linked_append.2 ⟨linked_append.2 ⟨?_, hN⟩, ?_⟩, ?_⟩
  · exact (hA.congr hb.1 hm hc.1).mono hf.1
  · exact (hB.congr hb.2 hm hc.2).mono hf.2
  · rw [below_append, below_append, below_congr hb.1, below_congr hb.2]

def Above (s : IndexStore K V) : Level K → List (Level K) → Prop
  | L, [] => ∃ r, L = [(⊥, r)] ∧ s.member.rootPageID = some r ∧ HasParent s r none
  | L, L' :: Ls => below s L' = L ∧ Linked s (fun _ => InternalFits s (Ls = [])) L' ∧ Above s L' Ls

/-- The pages of the levels `Ls`. -/
abbrev allIds (Ls : List (Level K)) : List Nat := Ls.flatMap ids

/-- The levels above depend on their own pages and on the parents named below. -/
theorem Above.congr {L : Level K} {Ls : List (Level K)} (h : Above s L Ls)
    (hp : ∀ x ∈ allIds Ls, s'.page x = s.page x) (hr : s'.member.rootPageID = s.member.rootPageID)
    (hm : s'.member.internalMaxSize = s.member.internalMaxSize)
    (hc : ∀ x ∈ ids L, ∀ a, HasParent s x a → HasParent s' x a) : Above s' L Ls := by
  induction Ls generalizing L with
  | nil =>
    obtain ⟨r, rfl, hr', hpar⟩ := h
    exact ⟨r, rfl, hr.trans hr', hc r (by simp) _ hpar⟩
  | cons L' Ls ih =>
    obtain ⟨rfl, hl, ha⟩ := h
    have hp' : ∀ x ∈ ids L', s'.page x = s.page x := fun x hx => hp x (by simp [allIds] at hx ⊢; exact .inl hx)
    have hb : ∀ x ∈ ids L', SameBody s s' x := fun x hx => .of_eq (hp' x hx)
    refine ⟨below_congr hb, ?_, ih ha (fun x hx => hp x ?_) fun x hx a hpar => hpar.congr (hp' x hx)⟩
    · have hl' := hl.congr hb hm hc
      refine hl'.mono fun x _ size hs => ?_
      simpa [InternalFits, internalMax, hm] using hs
    · simp only [allIds, List.flatMap_cons, List.mem_append]
      exact .inr hx

/-- Where a page and its parent stand in a stack of levels. -/
theorem Above.parent {A B : Level K} {lo : WithBot K} {x : Nat} {L : Level K} {Ls : List (Level K)}
    (hab : Above s (A ++ (lo, x) :: B) (L :: Ls)) :
    ∃ A' m B' p X k Y, L = A' ++ m :: B' ∧ s.page m.2 = some (.internal p) ∧ p.pageID = m.2 ∧
      p.array = X ++ (k, x) :: Y ∧ A ++ [(lo, x)] = below s A' ++ row m.1 (X ++ [(k, x)]) ∧
      B = Y.map cell ++ below s B' ∧ HasParent s x (some m.2) := by
  obtain ⟨hb, hl, -⟩ := hab
  obtain ⟨A', m, B', C, D, rfl, hc, rfl, rfl⟩ := below_split hb
  obtain ⟨p, hp, hid, hmax, hfit, hkids, -⟩ := hl m (by simp)
  rw [children_eq hp] at hc
  obtain ⟨X, k, Y, hes, rfl, hrow⟩ := row_split hc
  refine ⟨A', m, B', p, X, k, Y, rfl, hp, hid, hes, ?_, rfl, ?_⟩
  · rw [hrow, List.append_assoc]
  · exact hkids (k, x) (by simp [hes])

/-- A page of the lowest of the levels above gets other entries. `P` lists its
children after that. -/
theorem Above.place {A B : Level K} {m : Node K} {p p' : InternalPage K} {Ls : List (Level K)}
    (hl : Linked s (fun _ => InternalFits s (Ls = [])) (A ++ m :: B)) (hab : Above s (A ++ m :: B) Ls)
    (hp : s.page m.2 = some (.internal p)) (hs' : s'.page = Function.update s.page m.2 (some (.internal p')))
    (hmem : s'.member = s.member) (hid : p'.pageID = p.pageID) (hpar : p'.parentPageID = p.parentPageID)
    (hmax : p'.maxSize = p.maxSize) (hfits : InternalFits s (Ls = []) p'.array.length)
    (hkids : ∀ e ∈ p'.array, HasParent s e.2 (some m.2)) (hfirst : FirstKey m.1 p'.array)
    (hm : ∀ x ∈ p'.array.map (·.2) ++ (ids (below s A) ++ ids (below s B)) ++ (ids A ++ ids B) ++ allIds Ls, x ≠ m.2) :
    Above s' (below s A ++ row m.1 p'.array ++ below s B) ((A ++ m :: B) :: Ls) := by
  have hne : ∀ x, x ≠ m.2 → s'.page x = s.page x := by
    intro x hx
    rw [hs', Function.update_of_ne hx]
  have hsm : s'.page m.2 = some (.internal p') := by rw [hs', Function.update_self]
  obtain ⟨q, hq, hqid, hqmax, -, -⟩ := hl m (by simp)
  obtain rfl : q = p := by simpa [hp] using hq.symm
  have hfits' : ∀ size, InternalFits s (Ls = []) size → InternalFits s' (Ls = []) size := by
    intro size hs
    simpa [InternalFits, internalMax, hmem] using hs
  simp only [List.forall_mem_append] at hm
  obtain ⟨⟨⟨hmP, hmb⟩, hms⟩, hmu⟩ := hm
  -- the page is put back between its siblings, with other children
  obtain ⟨hlink, hbel⟩ := hl.splice (N := [m])
    (List.forall_mem_append.2 ⟨fun x hx => .of_eq (hne x (hms.1 x hx)), fun x hx => .of_eq (hne x (hms.2 x hx))⟩)
    (by rw [hmem])
    (List.forall_mem_append.2 ⟨fun x hx a h => h.congr (hne x (hmb.1 x hx)),
      fun x hx a h => h.congr (hne x (hmb.2 x hx))⟩)
    (fun x _ size => hfits' size) (by
      intro n hn
      rw [List.mem_singleton] at hn
      subst hn
      refine ⟨p', hsm, hid.trans hqid, ?_, hfits' _ hfits, fun e he => ?_, hfirst⟩
      · rw [hmax, hqmax, internalMax, internalMax, hmem]
      · exact (hkids e he).congr (hne _ (hmP _ (List.mem_map_of_mem he))))
  refine ⟨?_, ?_, ?_⟩
  · simpa [children, hsm] using hbel
  · simpa using hlink
  · refine hab.congr (fun x hx => hne x (hmu x hx)) (by rw [hmem]) (by rw [hmem]) fun x hx a h => ?_
    rcases eq_or_ne x m.2 with rfl | hx'
    · rw [hasParent_internal hp] at h
      rw [hasParent_internal hsm, hid, hpar]
      exact h
    · exact h.congr (hne x hx')

end Store

end MisakiDB
