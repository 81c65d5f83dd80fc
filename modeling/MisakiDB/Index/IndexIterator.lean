import MisakiDB.Index.Calls
/-!
# `IndexIterator`

An iterator stands on an entry of a leaf, which it keeps pinned, or at the end,
where it has no leaf. `Yields s es it s'` says what a scan from `it` finds in the
store `s'`: the entries `es` of the tree in `s`, one at each `++`, with one pin
more than in `s` until the end is reached.
-/

namespace MisakiDB

open Prog PageStore Blocks

/-- `curLeafPtr` is `nullptr` at the end. -/
structure IndexIterator where
  curLeafPtr : Option PageIDType
  curItemIndex : Nat
  deriving Repr, DecidableEq

variable {K V : Type}

namespace IndexIterator

def isEnd (it : IndexIterator) : Bool := it.curLeafPtr.isNone

/-- Leaves the leaf, once the next one is pinned. -/
def nextPage_helper (prevLeafPtr : PageIDType) : IndexProg K V IndexIterator := do
  let p ← getLeaf prevLeafPtr
  let curLeafPtr ←
    match p.nextPageID with
    | none => pure none
    | some next => do
      fetchPage next
      pure (some next)
  unpinPage (← getLeaf prevLeafPtr).pageID false
  pure ⟨curLeafPtr, 0⟩

/-- The constructor. -/
def make (beginLeafPtr : Option PageIDType) (beginItemIndex : Nat) : IndexProg K V IndexIterator :=
  match beginLeafPtr with
  | none => pure ⟨none, 0⟩
  | some leaf => do
    if (← getLeaf leaf).getSize ≤ beginItemIndex then
      nextPage_helper leaf
    else
      pure ⟨some leaf, beginItemIndex⟩

/-- The destructor. -/
def destroy (it : IndexIterator) : IndexProg K V Unit :=
  match it.curLeafPtr with
  | none => pure ()
  | some leaf => do unpinPage (← getLeaf leaf).pageID false

/-- `operator *`. -/
def item [LinearOrder K] (it : IndexIterator) : IndexProg K V (K × V) :=
  match it.curLeafPtr with
  | none => Prog.fail
  | some leaf => do require ((← getLeaf leaf).getItem it.curItemIndex)

/-- `operator ++`. -/
def next (it : IndexIterator) : IndexProg K V IndexIterator :=
  match it.curLeafPtr with
  | none => Prog.fail
  | some leaf => do
    if (← getLeaf leaf).getSize ≤ it.curItemIndex + 1 then
      nextPage_helper leaf
    else
      pure { it with curItemIndex := it.curItemIndex + 1 }

end IndexIterator

namespace BPlusTree
variable [LinearOrder K]

/-- `begin()`. -/
def begin [Inhabited K] (fuel : Nat) : IndexProg K V IndexIterator := do
  IndexIterator.make (some (← findLeafPage fuel default true)) 0

/-- `begin(key)`. -/
def beginAt (fuel : Nat) (key : K) : IndexProg K V IndexIterator := do
  let beginLeafPtr ← findLeafPage fuel key false
  let beginItemIndex := (← getLeaf beginLeafPtr).keyIndex key
  IndexIterator.make (some beginLeafPtr) beginItemIndex

/-- `end()`. -/
def end_ : IndexProg K V IndexIterator := IndexIterator.make none 0

end BPlusTree

variable [LinearOrder K]

/-! ## What a scan finds -/

/-- The iterator is on the entry, and holds one pin, on its leaf. -/
structure Stands (s : IndexStore K V) (e : K × V) (it : IndexIterator) (s' : IndexStore K V) : Prop where
  isEnd : it.isEnd = false
  item : run exec it.item s' = some (e, s')
  pin : ∃ leaf, it.curLeafPtr = some leaf ∧ s' = s.setPins leaf (s.pins leaf + 1)
  destroy : run exec it.destroy s' = some ((), s)

def Yields (s : IndexStore K V) : List (K × V) → IndexIterator → IndexStore K V → Prop
  | [], it, s' => it.isEnd = true ∧ run exec (BPlusTree.end_ : IndexProg K V _) s' = some (it, s') ∧ s' = s
  | e :: es, it, s' => Stands s e it s' ∧ ∃ it' s'', run exec it.next s' = some (it', s'') ∧ Yields s es it' s''

section Scan
variable {s : IndexStore K V} {fits : Nat → Nat → Prop} {p : LeafPage K V} {x : Nat} {es X Y : List (K × V)}

theorem yields_end : Yields s [] ⟨none, 0⟩ s := ⟨rfl, rfl, rfl⟩

theorem stands {e : K × V} (hp : s.page x = some (.leaf p)) (hid : p.pageID = x) (ha : p.array = X ++ e :: Y) :
    Stands s e ⟨some x, X.length⟩ (s.setPins x (s.pins x + 1)) where
  isEnd := rfl
  item := by
    rw [run_eq_iff]
    simp [IndexIterator.item, LeafPage.getItem, hp, ha]
  pin := ⟨x, rfl, rfl⟩
  destroy := by
    rw [run_eq_iff]
    simp [IndexIterator.destroy, hp, hid, setPins]

/-- The way over to the next leaf finds `es`. -/
def Crosses (s : IndexStore K V) (x : Nat) (es : List (K × V)) : Prop :=
  ∃ it s', run exec (IndexIterator.nextPage_helper x) (s.setPins x (s.pins x + 1)) = some (it, s') ∧ Yields s es it s'

/-- From an entry on, the rest of the leaf comes first. -/
theorem yields_leaf (hp : s.page x = some (.leaf p)) (hid : p.pageID = x) (hcross : Crosses s x es) {e : K × V}
    (ha : p.array = X ++ e :: Y) : Yields s (e :: Y ++ es) ⟨some x, X.length⟩ (s.setPins x (s.pins x + 1)) := by
  induction Y generalizing X e with
  | nil =>
    obtain ⟨it, s', hrun, hy⟩ := hcross
    refine ⟨stands hp hid ha, it, s', ?_, hy⟩
    rw [run_eq_iff] at hrun ⊢
    simp only [IndexIterator.next, wp_bind, wp_getLeaf, setPins_page, hp, Option.some.injEq, IndexFilePage.leaf.injEq,
      exists_eq_left', LeafPage.getSize, ha, List.length_append, List.length_singleton, le_refl, if_true]
    exact hrun
  | cons f Y ih =>
    refine ⟨stands hp hid ha, ⟨some x, (X ++ [e]).length⟩, s.setPins x (s.pins x + 1), ?_, ?_⟩
    · rw [run_eq_iff]
      simp only [IndexIterator.next, wp_bind, wp_getLeaf, setPins_page, hp, Option.some.injEq, IndexFilePage.leaf.injEq,
        exists_eq_left', wp_ite, LeafPage.getSize, ha, List.length_append, List.length_cons, wp_pure]
      rw [if_neg (by omega)]
      exact ⟨rfl, trivial⟩
    · exact ih (by rw [ha, List.append_assoc]; rfl)

/-- A new iterator on an index of the leaf. -/
theorem make_yields (hp : s.page x = some (.leaf p)) (hid : p.pageID = x) (hcross : Crosses s x es)
    (ha : p.array = X ++ Y) :
    ∃ it s', run exec (IndexIterator.make (some x) X.length) (s.setPins x (s.pins x + 1)) = some (it, s') ∧
      Yields s (Y ++ es) it s' := by
  cases Y with
  | nil =>
    obtain ⟨it, s', hrun, hy⟩ := hcross
    refine ⟨it, s', ?_, hy⟩
    rw [run_eq_iff] at hrun ⊢
    simp only [IndexIterator.make, wp_bind, wp_getLeaf, setPins_page, hp, Option.some.injEq, IndexFilePage.leaf.injEq,
      exists_eq_left', LeafPage.getSize, ha, List.append_nil, le_refl, if_true]
    exact hrun
  | cons e Y =>
    refine ⟨_, _, ?_, yields_leaf hp hid hcross ha⟩
    rw [run_eq_iff]
    simp only [IndexIterator.make, wp_bind, wp_getLeaf, setPins_page, hp, Option.some.injEq, IndexFilePage.leaf.injEq,
      exists_eq_left', wp_ite, LeafPage.getSize, ha, List.length_append, List.length_cons, wp_pure]
    rw [if_neg (by omega)]
    exact ⟨trivial, trivial⟩

/-- Two pins for a moment, and the first is given back. -/
theorem handover (pins : Nat → Nat) (x y : Nat) :
    0 < Function.update (Function.update pins x (pins x + 1)) y (Function.update pins x (pins x + 1) y + 1) x ∧
    Function.update (Function.update (Function.update pins x (pins x + 1)) y (Function.update pins x (pins x + 1) y + 1)) x
      (Function.update (Function.update pins x (pins x + 1)) y (Function.update pins x (pins x + 1) y + 1) x - 1) =
      Function.update pins y (pins y + 1) := by
  by_cases hxy : x = y
  · subst hxy
    simp
  · rw [Function.update_of_ne hxy, Function.update_self, Function.update_of_ne (Ne.symm hxy)]
    refine ⟨Nat.succ_pos _, ?_⟩
    rw [Function.update_comm (Ne.symm hxy), Function.update_idem, Nat.add_sub_cancel, Function.update_eq_self]

/-- Past the last entry of a leaf come the entries of the leaves after it, none of
which is empty. -/
theorem crosses (hf : ∀ x size, fits x size → 1 ≤ size) {n : Node K} {B : Level K} (hl : Leaves s fits (n :: B))
    (hc : Chained s (n :: B) none) : Crosses s n.2 (contents s B) := by
  induction B generalizing n with
  | nil =>
    obtain ⟨p, hp, hid, -⟩ := hl n (by simp)
    have hnext : p.nextPageID = none := by
      have := hc.1
      rwa [nextOf_eq hp, Option.some.injEq] at this
    refine ⟨⟨none, 0⟩, s, ?_, yields_end⟩
    rw [run_eq_iff]
    simp [IndexIterator.nextPage_helper, hp, hid, hnext, setPins]
  | cons m B ih =>
    obtain ⟨p, hp, hid, -⟩ := hl n (by simp)
    obtain ⟨q, hq, hqid, -, hfit⟩ := hl m (by simp)
    have hnext : p.nextPageID = some m.2 := by
      have := hc.1
      rwa [nextOf_eq hp, Option.some.injEq] at this
    have hcross := ih (leaves_cons.1 hl).2 hc.2
    obtain ⟨e, Y, hY⟩ := List.exists_cons_of_length_pos (hf _ _ hfit)
    refine ⟨⟨some m.2, 0⟩, s.setPins m.2 (s.pins m.2 + 1), ?_, ?_⟩
    · rw [run_eq_iff]
      simp only [IndexIterator.nextPage_helper, wp_bind, wp_getLeaf, setPins_page, hp, Option.some.injEq,
        IndexFilePage.leaf.injEq, exists_eq_left', hnext, wp_fetchPage, hq, wp_pure, setPins_pins, hid,
          wp_unpinPage, true_and]
      obtain ⟨hpos, hpins⟩ := handover s.pins n.2 m.2
      refine ⟨⟨_, rfl⟩, hpos, ?_⟩
      unfold setPins
      rw [← hpins]
    · have : contents s (m :: B) = e :: Y ++ contents s B := by
        simp [contents, entries_eq hq, hY]
      rw [this]
      exact yields_leaf (X := []) hq hqid hcross hY

/-! ## Where a scan starts -/

variable [Inhabited K]

/-- The walk that always takes the first child reaches the first leaf. -/
theorem descend_first (key : K) (fuel : Nat) {Q : Nat → IndexStore K V → Prop} (Ls : List (Level K)) :
    ∀ {n : Node K} {M : Level K}, Above s (n :: M) Ls →
    wp exec (BPlusTree.descend key true fuel n.2) Q (s.setPins n.2 (s.pins n.2 + 1)) →
    ∃ root, s.member.rootPageID = some root ∧ (∃ a, HasParent s root a) ∧
      wp exec (BPlusTree.descend key true (fuel + Ls.length) root) Q (s.setPins root (s.pins root + 1)) := by
  induction Ls generalizing fuel with
  | nil =>
    rintro n M ⟨r, hL, hr, hpar⟩ hQ
    rw [List.cons.injEq] at hL
    rw [hL.1] at hQ
    exact ⟨r, hr, ⟨_, hpar⟩, hQ⟩
  | cons L' Ls ih =>
    rintro n M ⟨hb, hl, hab⟩ hQ
    rcases L' with _ | ⟨m, L'⟩
    · rw [below_nil] at hb
      cases hb
    obtain ⟨p, hp, hid, -, hfit, hkids, -⟩ := hl m (by simp)
    obtain ⟨e, es, he⟩ := List.exists_cons_of_length_pos (lt_of_lt_of_le (by omega) hfit.1)
    rw [below_cons, children_eq hp, he, row_cons, List.cons_append, List.cons.injEq] at hb
    -- the first page of a level is the first child of the first page above
    have hchild : e.2 = n.2 := congrArg Prod.snd hb.1
    have hkid : ∃ pg, s.page n.2 = some pg := by
      obtain ⟨c, hc, -⟩ := hkids e (by simp [he])
      obtain ⟨pg, hpg, -⟩ := Option.bind_eq_some_iff.1 hc
      exact ⟨pg, hchild ▸ hpg⟩
    have := ih (fuel + 1) hab ?_
    · simpa only [List.length_cons, Nat.add_right_comm, ← Nat.add_assoc] using this
    simp only [BPlusTree.descend, wp_bind, wp_getNode, setPins_page, hp, Option.bind_some, IndexFilePage.node_internal,
      Option.some.injEq, exists_eq_left', wp_ite, Bool.false_eq_true, if_false, wp_getInternal,
      IndexFilePage.internal.injEq, wp_require, branching_valueAt, InternalPage.valueAt, he, List.getElem?_cons_zero,
      Option.map_some, if_true, hchild, wp_unpinPage, wp_fetchPage, setPins_pins, hid, Function.update_self]
    refine ⟨by omega, hkid, ?_⟩
    have hstate : (s.setPins m.2 (s.pins m.2 + 1)).setPins m.2 (s.pins m.2 + 1 - 1) = s := by
      simp [setPins]
    rw [hstate]
    simpa [setPins] using hQ

theorem findLeafPage_first {n : Node K} {M : Level K} {Ls : List (Level K)} {fuel : Nat} (key : K)
    (hl : Leaves s fits (n :: M)) (hab : Above s (n :: M) Ls) (hfuel : Ls.length < fuel) :
    run exec (BPlusTree.findLeafPage fuel key true) s = some (n.2, s.setPins n.2 (s.pins n.2 + 1)) := by
  obtain ⟨f, rfl⟩ : ∃ f, fuel = f + 1 + Ls.length := ⟨fuel - 1 - Ls.length, by omega⟩
  obtain ⟨p, hp, -⟩ := hl n (by simp)
  obtain ⟨root, hroot, ⟨a, c, hc, -⟩, hd⟩ := descend_first key (f + 1)
    (Q := fun x s' => x = n.2 ∧ s' = s.setPins n.2 (s.pins n.2 + 1)) Ls hab (by
      simp [BPlusTree.descend, hp])
  obtain ⟨pg, hpg, -⟩ := Option.bind_eq_some_iff.1 hc
  rw [run_eq_iff]
  simp only [BPlusTree.findLeafPage, wp_bind, wp_getMember, hroot, wp_fetchPage]
  exact ⟨⟨pg, hpg⟩, hd⟩

end Scan

section Tree
variable [Inhabited K] {s : IndexStore K V} {L : Level K} {Ls : List (Level K)} {fuel : Nat}

theorem Tree.begin (ht : Tree s L Ls) (hfuel : Ls.length < fuel) :
    ∃ it s', run exec (BPlusTree.begin fuel) s = some (it, s') ∧ Yields s (contents s L) it s' := by
  obtain ⟨n, M, rfl⟩ := List.exists_cons_of_ne_nil ht.above.length_le.1
  obtain ⟨p, hp, hid, -⟩ := ht.level.leaves n (by simp)
  have hcross := crosses (fun _ _ h => h.1) ht.level.leaves ht.level.chained
  obtain ⟨it, s', hrun, hy⟩ := make_yields (X := []) hp hid hcross rfl
  refine ⟨it, s', ?_, ?_⟩
  · rw [BPlusTree.begin, run_bind, findLeafPage_first default ht.level.leaves ht.above hfuel]
    exact hrun
  · rw [contents, blocks_cons, flat_cons, entries_eq hp]
    exact hy

theorem Tree.beginAt (ht : Tree s L Ls) (hfuel : Ls.length < fuel) (key : K) :
    ∃ it s', run exec (BPlusTree.beginAt fuel key) s = some (it, s') ∧
      Yields s ((contents s L).filter fun e => key ≤ e.1) it s' := by
  obtain ⟨x, s1, hfind, A, lo, B, rfl, hlo, hB, rfl⟩ := findLeafPage_spec key ht.level ht.above hfuel
  have hlB := (leaves_append.1 ht.level.leaves).2
  obtain ⟨p, hp, hid, -⟩ := hlB (lo, x) (by simp)
  have hcross := crosses (fun _ _ h => h.1) hlB (chained_append.1 ht.level.chained).2
  obtain ⟨it, s', hrun, hy⟩ := make_yields hp hid hcross (List.takeWhile_append_dropWhile (p := fun e => e.1 < key)).symm
  refine ⟨it, s', ?_, ?_⟩
  · rw [run_eq_iff] at hrun ⊢
    rw [BPlusTree.beginAt, wp_bind]
    refine ⟨_, _, hfind, ?_⟩
    simp only [wp_bind, wp_getLeaf, setPins_page, hp, Option.some.injEq, IndexFilePage.leaf.injEq, exists_eq_left']
    exact hrun
  · have hord := ht.level.ordered
    rw [blocks_append, blocks_cons, entries_eq hp] at hord
    rw [contents, blocks_append, blocks_cons, entries_eq hp, hord.filter_flat hlo fun b hb => ?_]
    · exact hy
    · obtain ⟨c, hc, rfl⟩ := List.mem_map.1 hb
      exact hB c hc

end Tree

/-! ## Every tree that calls make -/

section Runs
variable [Inhabited K] {leafMax internalMax : Nat} {s : IndexStore K V} {cs : List (Call K V)} {answers : List (Answer V)}

/-- In every tree with an entry, made by any calls: a scan finds the entries of the map,
once each and in order, and a scan from a key those from the key on. -/
theorem scan_in_order (h2 : 2 ≤ leafMax) (hrun : calls cs (BPlusTree.create leafMax internalMax) = some (answers, s))
    (hne : ∃ k, (mapCalls cs fun _ => none).2 k ≠ none) :
    ∃ es : List (K × V), Sorted es ∧ toMap es = (mapCalls cs fun _ => none).2 ∧
      (∃ it s', run exec (BPlusTree.begin (bound s)) s = some (it, s') ∧ Yields s es it s') ∧
      ∀ key, ∃ it s', run exec (BPlusTree.beginAt (bound s) key) s = some (it, s') ∧
        Yields s (es.filter fun e => key ≤ e.1) it s' := by
  obtain ⟨orphans, -, -, pages, es, used, free, h, ha, hh, hperm, hmap⟩ := TreeInv.reached h2 hrun
  rcases hh with ⟨-, -, rfl⟩ | ⟨L, Ls, ht, rfl, rfl⟩
  · obtain ⟨k, hk⟩ := hne
    exact absurd (congrFun hmap k).symm hk
  · have hfuel : Ls.length < bound s := by
      have := ht.depth ha hperm
      rw [ha.bound_eq]
      omega
    exact ⟨contents s L, ht.level.ordered.flat_sorted, hmap, ht.begin hfuel, ht.beginAt hfuel⟩

end Runs

/-- A scan over two leaves. -/
theorem scan_in_order_split : ∃ answers s, calls [.insert 1 10, .insert 2 20, .insert 3 30]
      (BPlusTree.create 2 4 : IndexStore Nat Nat) = some (answers, s) ∧
    ∃ es it s', Sorted es ∧ toMap es 2 = some 20 ∧ run exec (BPlusTree.begin (bound s)) s = some (it, s') ∧
    Yields s es it s' := by
  obtain ⟨s, -, hcs, -⟩ := (TreeInv.create 2 4).calls (K := Nat) (V := Nat) (by decide)
    [.insert 1 10, .insert 2 20, .insert 3 30]
  obtain ⟨es, hsorted, hmap, ⟨it, s', hrun, hy⟩, -⟩ := scan_in_order (by decide) hcs ⟨2, by decide⟩
  exact ⟨_, s, hcs, es, it, s', hsorted, by rw [hmap]; decide, hrun, hy⟩

end MisakiDB
