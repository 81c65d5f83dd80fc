import MisakiDB.Index.Split
import MisakiDB.Lib.Blocks
/-!
# The leaf level, and the way down to it

`LeafLevel` is what the bottom of the tree keeps: leaves of allowed sizes, linked
from left to right, whose entries are an ordered sequence cut into blocks. A
`Tree` is a leaf level with the levels above it. `findLeafPage` reaches the one
leaf whose bounds are around the key, and leaves no other pin.
-/

namespace MisakiDB

open Prog PageStore Blocks

variable {K V : Type}

section Level
variable {s s' : IndexStore K V}

def entries (s : IndexStore K V) (n : Node K) : List (K × V) :=
  match s.page n.2 with
  | some (.leaf p) => p.array
  | _ => []

def blocks (s : IndexStore K V) (L : Level K) : List (Block K V) := L.map fun n => (n.1, entries s n)

def contents (s : IndexStore K V) (L : Level K) : List (K × V) := flat (blocks s L)

def nextOf (s : IndexStore K V) (x : Nat) : Option (Option Nat) :=
  match s.page x with
  | some (.leaf p) => some p.nextPageID
  | _ => none

/-- The first page of a run of leaves that is followed by `e`. -/
def first (L : Level K) (e : Option Nat) : Option Nat :=
  match L with
  | [] => e
  | n :: _ => some n.2

def Chained (s : IndexStore K V) : Level K → Option Nat → Prop
  | [], _ => True
  | n :: L, e => nextOf s n.2 = some (first L e) ∧ Chained s L e

/-- The size a leaf keeps. -/
def LeafFits (s : IndexStore K V) (root : Prop) (size : Nat) : Prop :=
  1 ≤ size ∧ (¬ root → s.member.leafMaxSize / 2 ≤ size) ∧ size < s.member.leafMaxSize

def Leaves (s : IndexStore K V) (fits : Nat → Nat → Prop) (L : Level K) : Prop :=
  ∀ n ∈ L, ∃ p, s.page n.2 = some (.leaf p) ∧ p.pageID = n.2 ∧ p.maxSize = s.member.leafMaxSize ∧
    fits n.2 p.array.length

structure LeafLevel [LinearOrder K] (s : IndexStore K V) (fits : Nat → Nat → Prop) (L : Level K) : Prop where
  leaves : Leaves s fits L
  chained : Chained s L none
  ordered : Ordered (blocks s L)

structure Tree [LinearOrder K] [Inhabited K] (s : IndexStore K V) (L : Level K) (Ls : List (Level K)) : Prop where
  level : LeafLevel s (fun _ => LeafFits s (Ls = [])) L
  above : Above s L Ls

/-! ## One leaf changes -/

theorem entries_eq {n : Node K} {p : LeafPage K V} (h : s.page n.2 = some (.leaf p)) : entries s n = p.array := by
  simp [entries, h]

theorem nextOf_eq {x : Nat} {p : LeafPage K V} (h : s.page x = some (.leaf p)) : nextOf s x = some p.nextPageID := by
  simp [nextOf, h]

@[simp] theorem blocks_append (A B : Level K) : blocks s (A ++ B) = blocks s A ++ blocks s B := by
  simp [blocks]

@[simp] theorem blocks_cons (n : Node K) (L : Level K) : blocks s (n :: L) = (n.1, entries s n) :: blocks s L := rfl

@[simp] theorem blocks_nil : blocks s ([] : Level K) = [] := rfl

theorem entries_congr {n : Node K} (h : SameBody s s' n.2) : entries s' n = entries s n :=
  h.reads (f := fun o : Option (IndexPage K V) => match o with
    | some (.leaf p) => p.array
    | _ => []) fun o => by rcases o with _ | _ | _ | _ | _ | _ <;> rfl

theorem nextOf_congr {x : Nat} (h : SameBody s s' x) : nextOf s' x = nextOf s x :=
  h.reads (f := fun o : Option (IndexPage K V) => match o with
    | some (.leaf p) => some p.nextPageID
    | _ => none) fun o => by rcases o with _ | _ | _ | _ | _ | _ <;> rfl

theorem blocks_congr {L : Level K} (h : ∀ x ∈ ids L, SameBody s s' x) : blocks s' L = blocks s L :=
  List.map_congr_left fun n hn => by rw [entries_congr (h n.2 (List.mem_map_of_mem hn))]

theorem Leaves.congr {fits : Nat → Nat → Prop} {L : Level K} (hl : Leaves s fits L)
    (h : ∀ x ∈ ids L, SameBody s s' x) (hm : s'.member.leafMaxSize = s.member.leafMaxSize) : Leaves s' fits L := by
  intro n hn
  obtain ⟨p, hp, hid, hmax, hf⟩ := hl n hn
  obtain ⟨a, ha⟩ := (h n.2 (List.mem_map_of_mem hn)).leaf hp
  exact ⟨_, ha, hid, by rw [hm]; exact hmax, hf⟩

theorem Leaves.mono {fits fits' : Nat → Nat → Prop} {L : Level K} (h : Leaves s fits L)
    (hf : ∀ x ∈ ids L, ∀ size, fits x size → fits' x size) : Leaves s fits' L := by
  intro n hn
  obtain ⟨p, hp, hid, hmax, hs⟩ := h n hn
  exact ⟨p, hp, hid, hmax, hf _ (List.mem_map_of_mem hn) _ hs⟩

theorem leaves_append {fits : Nat → Nat → Prop} {A B : Level K} :
    Leaves s fits (A ++ B) ↔ Leaves s fits A ∧ Leaves s fits B := List.forall_mem_append

theorem leaves_cons {fits : Nat → Nat → Prop} {n : Node K} {L : Level K} :
    Leaves s fits (n :: L) ↔ Leaves s fits [n] ∧ Leaves s fits L := leaves_append (A := [n])

theorem first_append (A B : Level K) (e : Option Nat) : first (A ++ B) e = first A (first B e) := by
  cases A <;> rfl

theorem chained_append {A B : Level K} {e : Option Nat} :
    Chained s (A ++ B) e ↔ Chained s A (first B e) ∧ Chained s B e := by
  induction A with
  | nil => simp [Chained]
  | cons n A ih => rw [List.cons_append, Chained, Chained, ih, first_append, and_assoc]

theorem Chained.congr {L : Level K} {e : Option Nat} (hc : Chained s L e)
    (h : ∀ x ∈ ids L, nextOf s' x = nextOf s x) : Chained s' L e := by
  induction L with
  | nil => trivial
  | cons n L ih =>
    obtain ⟨h1, h2⟩ := hc
    exact ⟨by rw [h n.2 (by simp)]; exact h1, ih h2 fun x hx => h x (by simp at hx ⊢; exact .inr hx)⟩

variable [LinearOrder K]

theorem LeafLevel.congr {fits : Nat → Nat → Prop} {L : Level K} (hl : LeafLevel s fits L)
    (h : ∀ x ∈ ids L, SameBody s s' x) (hm : s'.member.leafMaxSize = s.member.leafMaxSize) :
    LeafLevel s' fits L :=
  ⟨hl.leaves.congr h hm, hl.chained.congr fun x hx => nextOf_congr (h x hx), by rw [blocks_congr h]; exact hl.ordered⟩

theorem LeafLevel.mono {fits fits' : Nat → Nat → Prop} {L : Level K} (h : LeafLevel s fits L)
    (hf : ∀ x ∈ ids L, ∀ size, fits x size → fits' x size) : LeafLevel s fits' L :=
  { h with leaves := h.leaves.mono hf }

/-- Some neighbouring leaves are replaced by others that start and end the same
links. -/
theorem LeafLevel.splice {fits fits' : Nat → Nat → Prop} {A M N B : Level K} (h : LeafLevel s fits (A ++ M ++ B))
    (hb : ∀ x ∈ ids A ++ ids B, SameBody s s' x) (hm : s'.member.leafMaxSize = s.member.leafMaxSize)
    (hf : ∀ x ∈ ids A ++ ids B, ∀ size, fits x size → fits' x size) (hN : Leaves s' fits' N)
    (hfirst : first N (first B none) = first M (first B none)) (hchain : Chained s' N (first B none))
    (hord : Ordered (blocks s A ++ blocks s' N ++ blocks s B)) : LeafLevel s' fits' (A ++ N ++ B) := by
  simp only [List.forall_mem_append] at hb hf
  have hleaves := h.leaves
  rw [leaves_append, leaves_append] at hleaves
  have hch := h.chained
  rw [chained_append, chained_append] at hch
  refine ⟨leaves_append.2 ⟨leaves_append.2 ⟨?_, hN⟩, ?_⟩, chained_append.2 ⟨chained_append.2 ⟨?_, hchain⟩, ?_⟩, ?_⟩
  · exact (hleaves.1.1.congr hb.1 hm).mono hf.1
  · exact (hleaves.2.congr hb.2 hm).mono hf.2
  · rw [hfirst]
    exact hch.1.1.congr fun x hx => nextOf_congr (hb.1 x hx)
  · exact hch.2.congr fun x hx => nextOf_congr (hb.2 x hx)
  · rw [blocks_append, blocks_append, blocks_congr hb.1, blocks_congr hb.2]
    exact hord

/-! ## The way down -/

omit [LinearOrder K] in
/-- The bounds of a level increase if those of the level below it do. -/
theorem bounds_sublist [Inhabited K] {fits : Nat → Nat → Prop} {L : Level K} (hl : Linked s fits L)
    (hf : ∀ x size, fits x size → 1 ≤ size) : (L.map (·.1)).Sublist ((below s L).map (·.1)) := by
  induction L with
  | nil => simp
  | cons n L ih =>
    rw [linked_cons] at hl
    obtain ⟨p, hp, -, -, hs, -⟩ := hl.1 n (by simp)
    obtain ⟨e, es, hes⟩ := List.exists_cons_of_length_pos (hf _ _ hs)
    rw [below_cons, children_eq hp, hes, row_cons]
    simp only [List.map_cons, List.cons_append, List.map_append]
    exact ((ih hl.2).trans (List.sublist_append_right _ _)).cons_cons _

/-- The child the scan of an internal page ends at. -/
theorem lookupFrom_spec (key : K) (c : Nat) (lo : WithBot K) (es : List (K × Nat)) (hlo : lo ≤ key) :
    ∃ A l B, (lo, c) :: es.map cell = A ++ (l, InternalPage.lookupFrom key c es) :: B ∧ l ≤ (key : WithBot K) ∧
      ∀ b ∈ B.head?, (key : WithBot K) < b.1 := by
  induction es generalizing c lo with
  | nil => exact ⟨[], lo, [], rfl, hlo, by simp⟩
  | cons e es ih =>
    by_cases h : key < e.1
    · refine ⟨[], lo, (e :: es).map cell, by simp [InternalPage.lookupFrom, h], hlo, ?_⟩
      simp [cell, h]
    · obtain ⟨A, l, B, heq, hl, hB⟩ := ih e.2 (e.1 : WithBot K) (WithBot.coe_le_coe.2 (not_lt.1 h))
      refine ⟨(lo, c) :: A, l, B, ?_, hl, hB⟩
      simp only [InternalPage.lookupFrom, if_neg h, List.map_cons, List.cons_append, ← heq]
      rfl

/-- Below the first bound above the key there are only larger bounds. -/
theorem head_bound [Inhabited K] {fits : Nat → Nat → Prop} {L : Level K} {key : WithBot K} (hl : Linked s fits L)
    (hf : ∀ x size, fits x size → 1 ≤ size) (h : ∀ b ∈ L.head?, key < b.1) : ∀ b ∈ (below s L).head?, key < b.1 := by
  cases L with
  | nil => simp
  | cons n L =>
    obtain ⟨p, hp, -, -, hs, -⟩ := hl n (by simp)
    obtain ⟨e, es, hes⟩ := List.exists_cons_of_length_pos (hf _ _ hs)
    simpa [below_cons, children_eq hp, hes] using h

theorem head_lt_all {L : Level K} {key : WithBot K} (hs : (L.map (·.1)).Pairwise (· < ·))
    (h : ∀ b ∈ L.head?, key < b.1) : ∀ b ∈ L, key < b.1 := by
  cases L with
  | nil => simp
  | cons n L =>
    intro b hb
    have hn : key < n.1 := h n rfl
    rcases List.mem_cons.1 hb with rfl | hb
    · exact hn
    · exact lt_trans hn ((List.pairwise_cons.1 (by simpa using hs)).1 b.1 (List.mem_map_of_mem hb))

variable [Inhabited K]

/-- The walk from the root reaches, at every level, the page whose bounds are around the key. -/
theorem descend_level (key : K) (fuel : Nat) {Q : Nat → IndexStore K V → Prop} (Ls : List (Level K)) :
    ∀ {L : Level K}, Above s L Ls → (L.map (·.1)).Pairwise (· < ·) →
    (∀ A lo x B, L = A ++ (lo, x) :: B → lo ≤ (key : WithBot K) → (∀ b ∈ B, (key : WithBot K) < b.1) →
      wp exec (BPlusTree.descend key false fuel x) Q (s.setPins x (s.pins x + 1))) →
    ∃ root, s.member.rootPageID = some root ∧ (∃ a, HasParent s root a) ∧
      wp exec (BPlusTree.descend key false (fuel + Ls.length) root) Q (s.setPins root (s.pins root + 1)) := by
  induction Ls generalizing fuel with
  | nil =>
    rintro L ⟨r, rfl, hr, hpar⟩ - hQ
    exact ⟨r, hr, ⟨_, hpar⟩, hQ [] ⊥ r [] rfl bot_le (by simp)⟩
  | cons L' Ls ih =>
    rintro L ⟨rfl, hl, hab⟩ hs hQ
    have hf1 : ∀ (x size : Nat), InternalFits s (Ls = []) size → 1 ≤ size := fun _ _ h => le_trans (by omega) h.1
    have hs' : (L'.map (·.1)).Pairwise (· < ·) := hs.sublist (bounds_sublist hl hf1)
    have := ih (fuel + 1) hab hs' ?_
    · simpa only [List.length_cons, Nat.add_right_comm, ← Nat.add_assoc] using this
    -- the child that the walk takes is the one with the key in its range
    intro A lo x B hL' hlo hB
    obtain ⟨p, hp, hid, -, hfit, hkids, -⟩ := hl (lo, x) (by simp [hL'])
    obtain ⟨e, es, hes⟩ := List.exists_cons_of_length_pos (hf1 0 _ hfit)
    obtain ⟨C, l, D, hsplit, hl', hD⟩ := lookupFrom_spec key e.2 lo es hlo
    have hp' : s.page x = some (.internal p) := hp
    have hchild : children s (lo, x) = C ++ (l, InternalPage.lookupFrom key e.2 es) :: D := by
      rw [children_eq hp, hes, row_cons, hsplit]
    have hL : below s L' = (below s A ++ C) ++ (l, InternalPage.lookupFrom key e.2 es) :: (D ++ below s B) := by
      rw [hL', below_append, below_cons, hchild]
      simp
    have hlB : Linked s (fun _ => InternalFits s (Ls = [])) B := by
      rw [hL', linked_append, linked_cons] at hl
      exact hl.2.2
    -- the pages to its right begin above the key
    have hrest : ∀ b ∈ D ++ below s B, (key : WithBot K) < b.1 := by
      refine head_lt_all ?_ ?_
      · have := hs
        rw [hL, List.map_append, List.map_cons] at this
        exact (List.pairwise_cons.1 (List.pairwise_append.1 this).2.1).2
      · cases D with
        | nil =>
          refine head_bound hlB hf1 fun b hb => ?_
          exact hB b (List.mem_of_mem_head? hb)
        | cons d D => simpa using hD
    have hkid : ∃ pg, s.page (InternalPage.lookupFrom key e.2 es) = some pg := by
      have hmem : InternalPage.lookupFrom key e.2 es ∈ ids (children s (lo, x)) := by simp [hchild]
      rw [children_eq hp, ids_row] at hmem
      obtain ⟨f, hf, hfe⟩ := List.mem_map.1 hmem
      obtain ⟨n, hn, -⟩ := hkids f hf
      obtain ⟨pg, hpg, -⟩ := Option.bind_eq_some_iff.1 hn
      exact ⟨pg, by rw [← hfe, hpg]⟩
    simp only [BPlusTree.descend, wp_bind, wp_getNode, setPins_page, hp', Option.bind_some, IndexFilePage.node_internal,
      Option.some.injEq, exists_eq_left', wp_ite, Bool.false_eq_true, if_false, wp_getInternal,
      IndexFilePage.internal.injEq, wp_require, branching_lookup, InternalPage.lookup, hes, wp_unpinPage, wp_fetchPage,
      setPins_pins, hid, Function.update_self]
    refine ⟨by omega, hkid, ?_⟩
    -- the pin on the parent is given up once the child has one
    have hstate : (s.setPins x (s.pins x + 1)).setPins x (s.pins x + 1 - 1) = s := by
      simp [setPins]
    rw [hstate]
    simpa [setPins] using hQ _ _ _ _ hL hl' hrest

theorem findLeafPage_spec {fits : Nat → Nat → Prop} {L : Level K} {Ls : List (Level K)} {fuel : Nat} (key : K)
    (hl : LeafLevel s fits L) (hab : Above s L Ls) (hfuel : Ls.length < fuel) :
    wp exec (BPlusTree.findLeafPage fuel key false) (fun x s' => ∃ A lo B, L = A ++ (lo, x) :: B ∧
      lo ≤ (key : WithBot K) ∧ (∀ b ∈ B, (key : WithBot K) < b.1) ∧ s' = s.setPins x (s.pins x + 1)) s := by
  obtain ⟨f, rfl⟩ : ∃ f, fuel = f + 1 + Ls.length := ⟨fuel - 1 - Ls.length, by omega⟩
  obtain ⟨root, hroot, ⟨a, n, hn, -⟩, hd⟩ := descend_level key (f + 1) (Q := fun x s' => ∃ A lo B,
    L = A ++ (lo, x) :: B ∧ lo ≤ (key : WithBot K) ∧ (∀ b ∈ B, (key : WithBot K) < b.1) ∧
    s' = s.setPins x (s.pins x + 1)) Ls hab (by simpa [blocks, Function.comp_def] using hl.ordered.bounds) (by
      intro A lo x B hL hlo hB
      obtain ⟨p, hp, -⟩ := hl.leaves (lo, x) (by simp [hL])
      have hp' : s.page x = some (.leaf p) := hp
      simp only [BPlusTree.descend, wp_bind, wp_getNode, setPins_page, hp', Option.bind_some, IndexFilePage.node_leaf,
        Option.some.injEq, exists_eq_left', if_true, wp_pure]
      exact ⟨A, lo, B, hL, hlo, hB, trivial⟩)
  obtain ⟨pg, hpg, -⟩ := Option.bind_eq_some_iff.1 hn
  simp only [BPlusTree.findLeafPage, wp_bind, wp_getMember, hroot, wp_fetchPage]
  exact ⟨⟨pg, hpg⟩, hd⟩

end Level

end MisakiDB
