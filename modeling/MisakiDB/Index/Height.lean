import MisakiDB.Index.Calls
import MisakiDB.Lib.Cost
import Mathlib.Data.Finset.Card
/-!
# The height of the tree

`fewest` is the number of entries a tree with so many internal levels has at least:
the root has two children, every other internal page half its capacity, every leaf
half of its own. So the height is at most logarithmic in the entries, after any
insertions and removals in any order. A call needs no more fuel than the tree has
levels; with more it does the same (`Approx`).
-/

namespace MisakiDB

open Prog PageStore Blocks

variable {K V : Type}

/-! ## How many entries a tree has -/

/-- The children of an internal page that is not the root. -/
def fanout (internalMax : Nat) : Nat := max internalMax 4 / 2

/-- The pages on the level below `d` internal ones. -/
def fewestPages (internalMax : Nat) : Nat → Nat
  | 0 => 1
  | d + 1 => 2 * fanout internalMax ^ d

/-- The entries of a tree with `d` internal levels. -/
def fewest (leafMax internalMax : Nat) : Nat → Nat
  | 0 => 1
  | d + 1 => fewestPages internalMax (d + 1) * (leafMax / 2)

theorem two_le_fanout (internalMax : Nat) : 2 ≤ fanout internalMax := by
  rw [fanout]
  omega

theorem two_pow_le_fewest {leafMax : Nat} (h2 : 2 ≤ leafMax) (internalMax d : Nat) :
    2 ^ d ≤ fewest leafMax internalMax d := by
  cases d with
  | zero => exact le_rfl
  | succ d =>
    have hpow : 2 ^ d ≤ fanout internalMax ^ d := Nat.pow_le_pow_left (two_le_fanout internalMax) d
    have hleaf : 1 ≤ leafMax / 2 := by omega
    calc 2 ^ (d + 1) = 2 * 2 ^ d := pow_succ' 2 d
      _ ≤ 2 * fanout internalMax ^ d := Nat.mul_le_mul_left 2 hpow
      _ ≤ fewest leafMax internalMax (d + 1) := Nat.le_mul_of_pos_right _ hleaf

section Tree
variable [Inhabited K] {s : IndexStore K V} {L : Level K} {Ls : List (Level K)}

theorem length_below {fits : Nat → Nat → Prop} {c : Nat} (hl : Linked s fits L)
    (hc : ∀ x size, fits x size → c ≤ size) :
    L.length * c ≤ (below s L).length := by
  induction L with
  | nil => simp
  | cons n L ih =>
    rw [linked_cons] at hl
    obtain ⟨p, hp, -, -, hfit, -⟩ := hl.1 n (by simp)
    have h1 := hc _ _ hfit
    have h2 := ih hl.2
    rw [below_cons, children_eq hp, List.length_append, length_row, List.length_cons, Nat.succ_mul]
    omega

/-- The pages of a level, from the root down. -/
theorem Above.fewestPages_le (hab : Above s L Ls) : fewestPages s.member.internalMaxSize Ls.length ≤ L.length := by
  induction Ls generalizing L with
  | nil =>
    obtain ⟨r, rfl, -⟩ := hab
    exact le_rfl
  | cons L' Ls ih =>
    obtain ⟨rfl, hl, hab⟩ := hab
    have hL' := ih hab
    cases Ls with
    | nil =>
      -- the one page above is the root
      have := length_below hl (c := 2) fun _ _ hfit => hfit.1
      simp only [List.length_nil, List.length_cons, fewestPages, pow_zero] at hL' ⊢
      omega
    | cons L'' Ls =>
      have hbel := length_below hl (c := fanout s.member.internalMaxSize) fun _ _ hfit => hfit.2.1 (by simp)
      simp only [List.length_cons, fewestPages] at hL' ⊢
      calc 2 * fanout s.member.internalMaxSize ^ (Ls.length + 1)
          = 2 * fanout s.member.internalMaxSize ^ Ls.length * fanout s.member.internalMaxSize :=
            by rw [pow_succ, mul_assoc]
        _ ≤ L'.length * fanout s.member.internalMaxSize := Nat.mul_le_mul_right _ hL'
        _ ≤ (below s L').length := hbel

omit [Inhabited K] in
theorem length_contents {fits : Nat → Nat → Prop} {c : Nat} (hl : Leaves s fits L)
    (hc : ∀ x size, fits x size → c ≤ size) :
    L.length * c ≤ (contents s L).length := by
  induction L with
  | nil => simp
  | cons n L ih =>
    rw [leaves_cons] at hl
    obtain ⟨p, hp, -, -, hfit⟩ := hl.1 n (by simp)
    have h1 := hc _ _ hfit
    have h2 := ih hl.2
    rw [contents] at h2 ⊢
    rw [blocks_cons, flat_cons, entries_eq hp, List.length_append, List.length_cons, Nat.succ_mul, Nat.add_comm]
    exact Nat.add_le_add h1 h2

variable [LinearOrder K]

/-- A tree with many levels has many entries. -/
theorem Tree.fewest_le (ht : Tree s L Ls) :
    fewest s.member.leafMaxSize s.member.internalMaxSize Ls.length ≤ (contents s L).length := by
  have hpages := ht.above.fewestPages_le
  cases Ls with
  | nil =>
    have := length_contents ht.level.leaves (c := 1) fun _ _ hfit => hfit.1
    simp only [List.length_nil, fewestPages, fewest] at hpages ⊢
    omega
  | cons L' Ls =>
    have := length_contents ht.level.leaves (c := s.member.leafMaxSize / 2) fun _ _ hfit => hfit.2.1 (by simp)
    exact le_trans (Nat.mul_le_mul_right _ hpages) this

/-- The entries have different keys, so a set of all keys is no smaller than they are. -/
theorem Tree.length_le_card (ht : Tree s L Ls) {keys : Finset K}
    (hkeys : ∀ k, toMap (contents s L) k ≠ none → k ∈ keys) :
    (contents s L).length ≤ keys.card := by
  have hnodup : ((contents s L).map (·.1)).Nodup :=
    List.pairwise_map.2 (ht.level.ordered.flat_sorted.imp ne_of_lt)
  have hsub : ((contents s L).map (·.1)).toFinset ⊆ keys := by
    intro k hk
    obtain ⟨e, he, rfl⟩ := List.mem_map.1 (List.mem_toFinset.1 hk)
    exact hkeys e.1 fun hnone => toMap_eq_none.1 hnone e he rfl
  have := Finset.card_le_card hsub
  rwa [List.toFinset_card_of_nodup hnodup, List.length_map] at this

end Tree

/-! ## Calls with enough fuel -/

section Fuel
variable [LinearOrder K]

theorem descend_approx (key : K) (leftMost : Bool) (fuel : Nat) (page : PageIDType) :
    Approx (BPlusTree.descend key leftMost fuel page : IndexProg K V PageIDType)
      (BPlusTree.descend key leftMost (fuel + 1) page) := by
  induction fuel generalizing page with
  | zero => exact Approx.fail _
  | succ fuel ih =>
    refine Approx.after _ fun n => ?_
    apply Approx.ite Approx.rfl
    refine Approx.after _ fun p => ?_
    refine Approx.after _ fun child => ?_
    refine Approx.after _ fun _ => ?_
    refine Approx.after _ fun _ => ?_
    exact ih child

theorem findLeafPage_approx (fuel : Nat) (key : K) (leftMost : Bool) :
    Approx (BPlusTree.findLeafPage fuel key leftMost : IndexProg K V PageIDType)
      (BPlusTree.findLeafPage (fuel + 1) key leftMost) := by
  refine Approx.after _ fun r => ?_
  split
  · exact Approx.rfl
  · exact Approx.after _ fun _ => descend_approx key leftMost fuel _

theorem getValue_approx (fuel : Nat) (key : K) :
    Approx (BPlusTree.getValue fuel key : IndexProg K V (Option V)) (BPlusTree.getValue (fuel + 1) key) := by
  refine Approx.after _ fun r => ?_
  apply Approx.ite Approx.rfl
  exact (findLeafPage_approx fuel key false).bind fun leaf => Approx.rfl

omit [LinearOrder K] in
theorem insertIntoParent_approx [Inhabited K] (fuel : Nat) (oldNode : PageIDType) (key : K) (newNode : PageIDType) :
    Approx (BPlusTree.insertIntoParent fuel oldNode key newNode : IndexProg K V Unit)
      (BPlusTree.insertIntoParent (fuel + 1) oldNode key newNode) := by
  induction fuel generalizing oldNode key newNode with
  | zero => exact Approx.fail _
  | succ fuel ih =>
    refine Approx.after _ fun old => ?_
    refine Approx.after _ fun new => ?_
    dsimp only
    split
    · exact Approx.rfl
    · refine Approx.after _ fun _ => ?_
      refine Approx.after _ fun p => ?_
      refine Approx.after _ fun q => ?_
      refine Approx.after _ fun _ => ?_
      refine Approx.ite ?_ Approx.rfl
      refine Approx.after _ fun newInternal => ?_
      refine Approx.after _ fun r => ?_
      refine Approx.after _ fun k => ?_
      exact (ih _ k newInternal).bind fun _ => Approx.rfl

theorem insert_approx [Inhabited K] (fuel : Nat) (key : K) (value : V) :
    Approx (BPlusTree.insert fuel key value : IndexProg K V Bool) (BPlusTree.insert (fuel + 1) key value) := by
  refine Approx.after _ fun r => ?_
  apply Approx.ite Approx.rfl
  refine (findLeafPage_approx fuel key false).bind fun leaf => ?_
  refine Approx.after _ fun p => ?_
  apply Approx.ite Approx.rfl
  refine Approx.after _ fun _ => ?_
  refine Approx.ite ?_ Approx.rfl
  refine Approx.after _ fun newLeaf => ?_
  refine Approx.after _ fun p => ?_
  refine Approx.after _ fun q => ?_
  refine Approx.after _ fun _ => ?_
  refine Approx.after _ fun _ => ?_
  refine Approx.after _ fun k => ?_
  exact (insertIntoParent_approx fuel leaf k newLeaf).bind fun _ => Approx.rfl

omit [LinearOrder K] in
theorem coalesce_approx {rec rec' : PageIDType → IndexProg K V Bool}
    (hrec : ∀ x, Approx (rec x) (rec' x)) (N : NodeType)
    (neighborNode node parent : PageIDType) (index : Nat) :
    Approx (BPlusTree.coalesce rec N neighborNode node parent index)
      (BPlusTree.coalesce rec' N neighborNode node parent index) := by
  have hend : ∀ neighborNode node : PageIDType, Approx (do
      let p ← require ((← getInternal parent).remove index)
      setInternal parent p
      if p.getSize < p.getMinSize then
        pure (neighborNode, node, ← rec parent)
      else
        pure (neighborNode, node, false)) (do
      let p ← require ((← getInternal parent).remove index)
      setInternal parent p
      if p.getSize < p.getMinSize then
        pure (neighborNode, node, ← rec' parent)
      else
        pure (neighborNode, node, false)) := by
    intro neighborNode node
    refine Approx.after _ fun p => ?_
    refine Approx.after _ fun q => ?_
    refine Approx.after _ fun _ => ?_
    exact Approx.ite ((hrec parent).bind fun needDelete => Approx.rfl) Approx.rfl
  unfold BPlusTree.coalesce
  refine Approx.after _ fun p => ?_
  refine Approx.after _ fun x => ?_
  refine Approx.after _ fun n => ?_
  cases N with
  | LeafPage => exact Approx.after _ fun _ => hend _ _
  | InternalPage =>
    refine Approx.after _ fun k => ?_
    exact Approx.after _ fun _ => hend _ _

omit [LinearOrder K] in
theorem coalesceOrRedistribute_approx (fuel : Nat) (N : NodeType) (node : PageIDType) :
    Approx (BPlusTree.coalesceOrRedistribute fuel N node : IndexProg K V Bool)
      (BPlusTree.coalesceOrRedistribute (fuel + 1) N node) := by
  induction fuel generalizing N node with
  | zero => exact Approx.fail _
  | succ fuel ih =>
    refine Approx.after _ fun n => ?_
    split
    · exact Approx.rfl
    · refine Approx.after _ fun _ => ?_
      refine Approx.after _ fun p => ?_
      refine Approx.after _ fun i => ?_
      refine Approx.after _ fun j => ?_
      refine Approx.after _ fun sibling => ?_
      refine Approx.after _ fun _ => ?_
      refine Approx.after _ fun m => ?_
      refine Approx.ite ?_ Approx.rfl
      exact (coalesce_approx (ih .InternalPage) N sibling node _ j.2).bind fun r => Approx.rfl

theorem remove_approx (fuel : Nat) (key : K) :
    Approx (BPlusTree.remove fuel key : IndexProg K V (Option V)) (BPlusTree.remove (fuel + 1) key) := by
  refine Approx.after _ fun r => ?_
  apply Approx.ite Approx.rfl
  refine (findLeafPage_approx fuel key false).bind fun leaf => ?_
  refine Approx.after _ fun p => ?_
  split
  · exact Approx.rfl
  · refine Approx.after _ fun _ => ?_
    refine Approx.ite ?_ Approx.rfl
    exact (coalesceOrRedistribute_approx fuel .LeafPage leaf).bind fun needDelete => Approx.rfl

/-- More fuel does not change a call that ends. -/
theorem Call.approx [Inhabited K] (c : Call K V) {fuel fuel' : Nat} (hle : fuel ≤ fuel') :
    Approx (c.prog fuel) (c.prog fuel') := by
  induction hle with
  | refl => exact Approx.rfl
  | step _ ih =>
    apply ih.trans
    cases c with
    | insert key value => exact (insert_approx _ key value).bind fun b => Approx.rfl
    | remove key => exact (remove_approx _ key).bind fun v => Approx.rfl
    | getValue key => exact (getValue_approx _ key).bind fun v => Approx.rfl

end Fuel

end MisakiDB
