import MisakiDB.Buffer.Tidy
import MisakiDB.Index.Calls
/-!
# The tree in a pool that evicts

Every function of the tree keeps the promises of `Tidy`: it touches pages it has
pinned, and unpins as dirty every page it changed. From this: calls on a tree in a
pool that evicts pages of its choice have the answers of a pool that never evicts, and
so has a tree made on the file that the pool leaves behind.
-/

namespace MisakiDB

open Prog

section
variable {K V : Type}

/-- A page of the tree has its own id in it. -/
def KnowsID (k : PageIDType) (p : IndexPage K V) : Prop := ∀ n, p.node = some n → n.pageID = k

abbrev TrackedTree (K V : Type) := Tracked PageIDType (IndexPage K V) BPlusTree

abbrev noneSpared : PageIDType → Bool := fun _ => false

/-- A function of the tree holds the pins `P`, and only pages it holds are unsaved. -/
abbrev Orderly (P : Multiset PageIDType) (t : TrackedTree K V) : Prop := Tidy noneSpared KnowsID P P t

/-- It holds the pins `P` and there is nothing to save. -/
abbrev Clean (P : Multiset PageIDType) (t : TrackedTree K V) : Prop := Tidy noneSpared KnowsID P 0 t

abbrev tracked : Handler (PageOp PageIDType (IndexPage K V) BPlusTree) PageOp.Res (TrackedTree K V) :=
  Tracked.exec noneSpared

section Access
variable {α : Type} {I : PageIDType → IndexPage K V → Prop} {P U : Multiset PageIDType} {t : TrackedTree K V} {k : PageIDType}

theorem wlp_require {o : Option α} {Q : α → TrackedTree K V → Prop} :
    wlp tracked (require o) Q t ↔ ∀ a, o = some a → Q a t := by
  cases o with
  | none => exact ⟨fun _ a ha => (Option.some_ne_none a ha.symm).elim, fun _ => wlp_fail⟩
  | some a => simp [require]

theorem require_same (o : Option α) : wlp tracked (require o) (fun a t' => o = some a ∧ t' = t) t :=
  wlp_require.2 fun _ ha => ⟨ha, rfl⟩

namespace Tidy

theorem require (h : Tidy noneSpared KnowsID P U t) (o : Option α) :
    wlp tracked (MisakiDB.require o) (fun a t' => o = some a ∧ Tidy noneSpared KnowsID P U t') t :=
  wlp_require.2 fun _ ha => ⟨ha, h⟩

theorem getHeader (h : Tidy noneSpared I P U t) (hk : 0 ∈ P) :
    wlp tracked MisakiDB.getHeader (fun _ t' => Tidy noneSpared I P U t') t := by
  unfold MisakiDB.getHeader
  refine (h.get hk).seq_and fun p t _ h => ?_
  cases p with
  | header x => exact (wlp_pure x).2 h
  | _ => exact wlp_fail

theorem getFreePage (h : Tidy noneSpared I P U t) (hk : k ∈ P) :
    wlp tracked (MisakiDB.getFreePage k) (fun _ t' => Tidy noneSpared I P U t') t := by
  unfold MisakiDB.getFreePage
  refine (h.get hk).seq_and fun p t _ h => ?_
  cases p with
  | free x => exact (wlp_pure x).2 h
  | _ => exact wlp_fail

theorem getLeaf (h : Tidy noneSpared KnowsID P U t) (hk : k ∈ P) :
    wlp tracked (MisakiDB.getLeaf k) (fun p t' => p.pageID = k ∧ Tidy noneSpared KnowsID P U t') t := by
  unfold MisakiDB.getLeaf
  refine (h.get hk).seq_and fun p t hI h => ?_
  cases p with
  | leaf x => exact (wlp_pure x).2 ⟨hI _ rfl, h⟩
  | _ => exact wlp_fail

theorem readInternal (h : Tidy noneSpared KnowsID P U t) (hk : k ∈ P) :
    wlp tracked (MisakiDB.getInternal k) (fun p t' => t.store.page k = some (.internal p) ∧ t' = t) t := by
  unfold MisakiDB.getInternal
  refine (h.read hk).seq ?_
  rintro p _ ⟨hp, rfl⟩
  cases p with
  | internal x => exact (wlp_pure x).2 ⟨hp, rfl⟩
  | _ => exact wlp_fail

theorem getInternal (h : Tidy noneSpared KnowsID P U t) (hk : k ∈ P) :
    wlp tracked (MisakiDB.getInternal k) (fun p t' => p.pageID = k ∧ Tidy noneSpared KnowsID P U t') t := by
  refine wlp_conseq (h.readInternal hk) ?_
  rintro p _ ⟨hp, rfl⟩
  exact ⟨h.pages k _ hp _ rfl, h⟩

theorem readNode (h : Tidy noneSpared KnowsID P U t) (hk : k ∈ P) :
    wlp tracked (MisakiDB.getNode k) (fun n t' => (t.store.page k).bind IndexFilePage.node = some n ∧ t' = t) t := by
  unfold MisakiDB.getNode
  refine (h.read hk).seq ?_
  rintro p _ ⟨hp, rfl⟩
  exact wlp_require.2 fun n hn => ⟨by rw [hp]; exact hn, rfl⟩

theorem getNode (h : Tidy noneSpared KnowsID P U t) (hk : k ∈ P) :
    wlp tracked (MisakiDB.getNode k) (fun n t' => n.pageID = k ∧ Tidy noneSpared KnowsID P U t') t := by
  refine wlp_conseq (h.readNode hk) ?_
  rintro n _ ⟨hn, rfl⟩
  obtain ⟨p, hp, hn⟩ := Option.bind_eq_some_iff.1 hn
  exact ⟨h.pages k p hp n hn, h⟩

theorem unpin_own (h : Orderly (k ::ₘ P) t) {x : PageIDType} (hx : x = k) :
    wlp tracked (unpinPage x true) (fun _ t' => Orderly P t') t := hx ▸ h.unpin

theorem take (h : Orderly P t) (k : PageIDType) : wlp tracked (fetchPage k) (fun _ t' => Orderly (k ::ₘ P) t') t :=
  wlp_conseq (h.fetch k) fun _ _ h => h.mono (Multiset.subset_cons P k)

theorem setLeaf (h : Orderly P t) {p : LeafPage K V} (hk : k ∈ P) (hp : p.pageID = k) :
    wlp tracked (MisakiDB.setLeaf k p) (fun _ t' => Orderly P t') t := by
  refine wlp_conseq (h.set hk fun n hn => ?_) fun _ _ h => h.written_twice hk
  obtain rfl := Option.some.inj hn
  exact hp

theorem setInternal (h : Orderly P t) {p : InternalPage K} (hk : k ∈ P) (hp : p.pageID = k) :
    wlp tracked (MisakiDB.setInternal k p) (fun _ t' => Orderly P t') t := by
  refine wlp_conseq (h.set hk fun n hn => ?_) fun _ _ h => h.written_twice hk
  obtain rfl := Option.some.inj hn
  exact hp

/-- A page that is none of the tree's is written. -/
theorem setOther (h : Orderly P t) {p : IndexPage K V} (hk : k ∈ P) (hp : p.node = none) :
    wlp tracked (setData k p) (fun _ t' => Orderly P t') t := by
  refine wlp_conseq (h.set hk fun n hn => ?_) fun _ _ h => h.written_twice hk
  rw [hp] at hn
  cases hn

theorem setParentPageID (h : Orderly P t) (hk : k ∈ P) (parent : Option PageIDType) :
    wlp tracked (MisakiDB.setParentPageID k parent) (fun _ t' => Orderly P t') t := by
  unfold MisakiDB.setParentPageID
  refine (h.get hk).seq_and fun p t hI h => ?_
  refine wlp_conseq (h.set hk fun n hn => ?_) fun _ _ h => h.written_twice hk
  cases p with
  | leaf x =>
    obtain rfl := Option.some.inj hn
    have hx : x.pageID = k := hI _ (IndexFilePage.node_leaf x)
    exact hx
  | internal x =>
    obtain rfl := Option.some.inj hn
    have hx : x.pageID = k := hI _ (IndexFilePage.node_internal x)
    exact hx
  | _ => cases hn

end Tidy

end Access

/-! ## The file manager -/

section File
variable {I : PageIDType → IndexPage K V → Prop} {P U : Multiset PageIDType} {t : TrackedTree K V}

/-- The new page is zeroed, which is a change the caller has to save. -/
theorem Tidy.newPage (h : Tidy noneSpared I P U t) (hI : ∀ k p, p.node = none → I k p) :
    wlp tracked MisakiDB.newIndexPage (fun x t' => Tidy noneSpared I (x ::ₘ P) (x ::ₘ U) t') t := by
  unfold MisakiDB.newIndexPage
  refine (h.fetch 0).seq fun _ t h => ?_
  refine (h.getHeader (Multiset.mem_cons_self 0 P)).seq fun header t h => ?_
  have hend : ∀ (x : PageIDType) (t : TrackedTree K V), Tidy noneSpared I (0 ::ₘ x ::ₘ P) (0 ::ₘ x ::ₘ U) t →
      wlp tracked (do unpinPage 0 true; pure x) (fun x t' => Tidy noneSpared I (x ::ₘ P) (x ::ₘ U) t') t := by
    intro x t h
    refine h.unpin.seq fun _ t h => ?_
    exact (wlp_pure x).2 h
  cases header.freePageListHeader with
  | none =>
    refine (h.append (hI header.nextPageID default rfl)).seq fun _ t h => ?_
    have h := (h.mono (Multiset.subset_cons U header.nextPageID)).swap
    refine (h.set (Multiset.mem_cons_self 0 _) (hI 0 _ rfl)).seq fun _ t h => ?_
    exact hend header.nextPageID t h
  | some free =>
    refine (h.fetch free).seq fun _ t h => ?_
    refine (h.getFreePage (Multiset.mem_cons_self free _)).seq fun newPage t h => ?_
    refine (h.swap.set (Multiset.mem_cons_self 0 _) (hI 0 _ rfl)).seq fun _ t h => ?_
    refine (h.set (k := free) (by simp) (hI free _ rfl)).seq fun _ t h => ?_
    exact hend free t h.swap_unsaved

/-- A page that is refused has no changes of this call, and goes as clean. -/
theorem Tidy.deletePage (h : Tidy noneSpared I P U t) (hI : ∀ k p, p.node = none → I k p) (hU : U ⊆ P)
    (x : PageIDType) :
    wlp tracked (MisakiDB.deleteIndexPage x) (fun _ t' => Tidy noneSpared I P U t') t := by
  unfold MisakiDB.deleteIndexPage
  refine (h.fetch 0).seq fun _ t h => ?_
  refine (h.getHeader (Multiset.mem_cons_self 0 P)).seq fun header t h => ?_
  rw [wlp_ite]
  split
  · refine (h.unpin_clean fun h0 => hU h0).seq fun _ t h => ?_
    exact (wlp_pure false).2 h
  refine (h.fetch x).seq fun _ t h => ?_
  have hx : x ∈ x ::ₘ 0 ::ₘ P := Multiset.mem_cons_self x _
  have hrefuse : ∀ t : TrackedTree K V, Tidy noneSpared I (x ::ₘ 0 ::ₘ P) U t →
      wlp tracked (do unpinPage x false; unpinPage 0 false; pure false) (fun _ t' => Tidy noneSpared I P U t') t := by
    intro t h
    refine (h.unpin_clean fun hx => Multiset.mem_cons_of_mem (hU hx)).seq fun _ t h => ?_
    refine (h.unpin_clean fun h0 => hU h0).seq fun _ t h => ?_
    exact (wlp_pure false).2 h
  refine (h.pinCount hx).seq fun n t h => ?_
  rw [wlp_ite]
  split
  · exact hrefuse t h
  refine (h.get hx).seq_and fun p t _ h => ?_
  have hdelete : wlp tracked (do
      setData x (.free { nextFreePageID := header.freePageListHeader })
      setData 0 (.header { header with freePageListHeader := some x })
      unpinPage x true
      unpinPage 0 true
      pure true) (fun _ t' => Tidy noneSpared I P U t') t := by
    refine (h.set hx (hI x _ rfl)).seq fun _ t h => ?_
    refine (h.set (k := 0) (by simp) (hI 0 _ rfl)).seq fun _ t h => ?_
    refine h.swap_unsaved.unpin.seq fun _ t h => ?_
    refine h.unpin.seq fun _ t h => ?_
    exact (wlp_pure true).2 h
  cases p with
  | free f => exact hrefuse t h
  | _ => exact hdelete

theorem knowsID_other (k : PageIDType) (p : IndexPage K V) (hp : p.node = none) : KnowsID k p := by
  intro n hn
  rw [hp] at hn
  cases hn

theorem Tidy.newIndexPage (h : Orderly P t) :
    wlp tracked MisakiDB.newIndexPage (fun x t' => Orderly (x ::ₘ P) t') t := h.newPage knowsID_other

theorem Tidy.deleteIndexPage (h : Orderly P t) (x : PageIDType) :
    wlp tracked (MisakiDB.deleteIndexPage x) (fun _ t' => Orderly P t') t :=
  h.deletePage knowsID_other (Multiset.Subset.refl P) x

end File

/-! ## Moving entries -/

section Moves
variable {P : Multiset PageIDType} {t : TrackedTree K V} {a b : PageIDType}

namespace Tidy

theorem leaf_moveHalfTo (h : Orderly P t) (ha : a ∈ P) (hb : b ∈ P) :
    wlp tracked (LeafPage.moveHalfTo a b) (fun _ t' => Orderly P t') t := by
  unfold LeafPage.moveHalfTo
  refine (h.getLeaf ha).seq_and fun p t hp h => ?_
  refine (h.getLeaf hb).seq_and fun q t hq h => ?_
  refine (h.setLeaf hb (by exact hq)).seq fun _ t h => ?_
  exact h.setLeaf ha (by exact hp)

theorem leaf_moveAllTo (h : Orderly P t) (ha : a ∈ P) (hb : b ∈ P) :
    wlp tracked (LeafPage.moveAllTo a b) (fun _ t' => Orderly P t') t := by
  unfold LeafPage.moveAllTo
  refine (h.getLeaf ha).seq_and fun p t hp h => ?_
  refine (h.getLeaf hb).seq_and fun q t hq h => ?_
  refine (h.setLeaf hb (by exact hq)).seq fun _ t h => ?_
  refine (h.setLeaf ha (by exact hp)).seq fun _ t h => ?_
  refine (h.getLeaf hb).seq_and fun q t hq h => ?_
  exact h.setLeaf hb (by exact hq)

theorem leaf_moveFirstToEndOf (h : Orderly P t) (ha : a ∈ P) (hb : b ∈ P) :
    wlp tracked (LeafPage.moveFirstToEndOf a b) (fun _ t' => Orderly P t') t := by
  unfold LeafPage.moveFirstToEndOf
  refine (h.getLeaf ha).seq_and fun p t hp h => ?_
  refine (h.require _).seq_and fun first t _ h => ?_
  refine (h.getLeaf hb).seq_and fun q t hq h => ?_
  refine (h.setLeaf hb (by exact hq)).seq fun _ t h => ?_
  exact h.setLeaf ha (by exact hp)

theorem leaf_moveLastToFrontOf (h : Orderly P t) (ha : a ∈ P) (hb : b ∈ P) :
    wlp tracked (LeafPage.moveLastToFrontOf a b) (fun _ t' => Orderly P t') t := by
  unfold LeafPage.moveLastToFrontOf
  refine (h.getLeaf ha).seq_and fun p t hp h => ?_
  refine (h.require _).seq_and fun last t _ h => ?_
  refine (h.getLeaf hb).seq_and fun q t hq h => ?_
  refine (h.setLeaf hb (by exact hq)).seq fun _ t h => ?_
  exact h.setLeaf ha (by exact hp)

/-- A child whose only change is its parent is pinned for it. -/
theorem adopt (h : Orderly P t) (ha : a ∈ P) (child : PageIDType) :
    wlp tracked (InternalPage.adopt a child) (fun _ t' => Orderly (child ::ₘ P) t') t := by
  unfold InternalPage.adopt
  refine (h.take child).seq fun _ t h => ?_
  refine (h.getInternal (Multiset.mem_cons_of_mem ha)).seq_and fun p t _ h => ?_
  exact h.setParentPageID (Multiset.mem_cons_self child P) _

theorem copyNFrom (h : Orderly P t) (ha : a ∈ P) (items : List (K × PageIDType)) :
    wlp tracked (InternalPage.copyNFrom a items) (fun _ t' => Orderly P t') t := by
  induction items generalizing t with
  | nil => exact (wlp_pure ()).2 h
  | cons e items ih =>
    unfold InternalPage.copyNFrom
    refine (h.getInternal ha).seq_and fun p t hp h => ?_
    refine (h.setInternal ha (by exact hp)).seq fun _ t h => ?_
    refine (h.adopt ha e.2).seq fun _ t h => ?_
    refine h.unpin.seq fun _ t h => ?_
    exact ih h

theorem copyLastFrom (h : Orderly P t) (ha : a ∈ P) (pair : K × PageIDType) :
    wlp tracked (InternalPage.copyLastFrom a pair) (fun _ t' => Orderly P t') t := by
  unfold InternalPage.copyLastFrom
  refine (h.getInternal ha).seq_and fun p t hp h => ?_
  refine (h.setInternal ha (by exact hp)).seq fun _ t h => ?_
  refine (h.adopt ha pair.2).seq fun _ t h => ?_
  refine (h.getNode (Multiset.mem_cons_self pair.2 P)).seq_and fun n t hn h => ?_
  exact h.unpin_own hn

theorem copyFirstFrom (h : Orderly P t) (ha : a ∈ P) (pair : K × PageIDType) :
    wlp tracked (InternalPage.copyFirstFrom a pair) (fun _ t' => Orderly P t') t := by
  unfold InternalPage.copyFirstFrom
  refine (h.getInternal ha).seq_and fun p t hp h => ?_
  refine (h.setInternal ha (by exact hp)).seq fun _ t h => ?_
  refine (h.adopt ha pair.2).seq fun _ t h => ?_
  refine (h.getNode (Multiset.mem_cons_self pair.2 P)).seq_and fun n t hn h => ?_
  exact h.unpin_own hn

theorem setKeyAt_pageID {p q : InternalPage K} {i : Nat} {key : K} (h : p.setKeyAt i key = some q) :
    q.pageID = p.pageID := by
  unfold InternalPage.setKeyAt at h
  split at h
  · obtain rfl := Option.some.inj h
    rfl
  · cases h

theorem internal_moveHalfTo (h : Orderly P t) (ha : a ∈ P) (hb : b ∈ P) :
    wlp tracked (InternalPage.moveHalfTo a b) (fun _ t' => Orderly P t') t := by
  unfold InternalPage.moveHalfTo
  refine (h.getInternal ha).seq_and fun p t hp h => ?_
  refine (h.copyNFrom hb _).seq fun _ t h => ?_
  exact h.setInternal ha (by exact hp)

theorem internal_moveAllTo (h : Orderly P t) (ha : a ∈ P) (hb : b ∈ P) (key : K) :
    wlp tracked (InternalPage.moveAllTo a b key) (fun _ t' => Orderly P t') t := by
  unfold InternalPage.moveAllTo
  refine (h.getInternal ha).seq_and fun p t hp h => ?_
  refine (h.require _).seq_and fun q t hq h => ?_
  have hq : q.pageID = a := (setKeyAt_pageID hq).trans hp
  refine (h.setInternal ha (by exact hq)).seq fun _ t h => ?_
  refine (h.copyNFrom hb _).seq fun _ t h => ?_
  exact h.setInternal ha (by exact hq)

theorem internal_moveFirstToEndOf (h : Orderly P t) (ha : a ∈ P) (hb : b ∈ P) (key : K) :
    wlp tracked (InternalPage.moveFirstToEndOf a b key) (fun _ t' => Orderly P t') t := by
  unfold InternalPage.moveFirstToEndOf
  refine (h.getInternal ha).seq_and fun p t hp h => ?_
  refine (h.require _).seq_and fun first t _ h => ?_
  refine (h.copyLastFrom hb first).seq fun _ t h => ?_
  refine (h.getInternal hb).seq_and fun q t hq h => ?_
  refine (h.require _).seq_and fun r t hr h => ?_
  refine (h.setInternal hb ((setKeyAt_pageID hr).trans hq)).seq fun _ t h => ?_
  exact h.setInternal ha (by exact hp)

theorem internal_moveLastToFrontOf (h : Orderly P t) (ha : a ∈ P) (hb : b ∈ P) (key : K) :
    wlp tracked (InternalPage.moveLastToFrontOf a b key) (fun _ t' => Orderly P t') t := by
  unfold InternalPage.moveLastToFrontOf
  refine (h.getInternal hb).seq_and fun q t hq h => ?_
  refine (h.require _).seq_and fun r t hr h => ?_
  refine (h.setInternal hb ((setKeyAt_pageID hr).trans hq)).seq fun _ t h => ?_
  refine (h.getInternal ha).seq_and fun p t hp h => ?_
  refine (h.require _).seq_and fun last t _ h => ?_
  refine (h.copyFirstFrom hb last).seq fun _ t h => ?_
  exact h.setInternal ha (by exact hp)

end Tidy

end Moves

/-! ## The tree's functions -/

section Functions
variable {P : Multiset PageIDType} {t : TrackedTree K V}

open BPlusTree

namespace Tidy

theorem construct (h : Clean 0 t) (leafMaxSize internalMaxSize : Nat) :
    wlp tracked (BPlusTree.construct leafMaxSize internalMaxSize : IndexProg K V Unit) (fun _ t' => Clean 0 t') t := by
  unfold BPlusTree.construct
  refine (h.fetch 0).seq fun _ t h => ?_
  refine (h.getHeader (Multiset.mem_cons_self 0 0)).seq fun header t h => ?_
  refine (h.withMember _).seq fun _ t h => ?_
  exact unpin_clean (P := 0) h (by simp)

theorem updateRootPageID (h : Orderly P t) :
    wlp tracked (BPlusTree.updateRootPageID : IndexProg K V Unit) (fun _ t' => Orderly P t') t := by
  unfold BPlusTree.updateRootPageID
  refine (h.take 0).seq fun _ t h => ?_
  refine (h.getHeader (Multiset.mem_cons_self 0 P)).seq fun header t h => ?_
  refine h.member.seq fun m t h => ?_
  refine (h.setOther (Multiset.mem_cons_self 0 P) rfl).seq fun _ t h => ?_
  exact h.unpin

theorem setRootPageID (h : Orderly P t) (root : Option PageIDType) :
    wlp tracked (BPlusTree.setRootPageID root : IndexProg K V Unit) (fun _ t' => Orderly P t') t := by
  unfold BPlusTree.setRootPageID
  refine h.member.seq fun m t h => ?_
  exact h.withMember _

/-- On the way down nothing is written, so every page goes as clean. -/
theorem descend [LinearOrder K] {key : K} {leftMost : Bool} {fuel : Nat} {page : PageIDType} (h : Clean {page} t) :
    wlp tracked (BPlusTree.descend key leftMost fuel page) (fun x t' => Clean {x} t') t := by
  induction fuel generalizing page t with
  | zero => exact wlp_fail
  | succ fuel ih =>
    unfold BPlusTree.descend
    refine (h.getNode (Multiset.mem_singleton_self page)).seq_and fun n t hn h => ?_
    rw [wlp_ite]
    split
    · exact (wlp_pure page).2 h
    · refine (h.getInternal (Multiset.mem_singleton_self page)).seq_and fun p t _ h => ?_
      refine (h.require _).seq_and fun child t _ h => ?_
      rw [hn]
      refine (unpin_clean (P := 0) h (by simp)).seq fun _ t h => ?_
      refine (h.fetch child).seq fun _ t h => ?_
      exact ih h

theorem findLeafPage [LinearOrder K] (h : Clean 0 t) (fuel : Nat) (key : K) (leftMost : Bool) :
    wlp tracked (BPlusTree.findLeafPage fuel key leftMost) (fun x t' => Clean {x} t') t := by
  unfold BPlusTree.findLeafPage
  refine h.member.seq fun m t h => ?_
  cases m.rootPageID with
  | none => exact wlp_fail
  | some root =>
    refine (h.fetch root).seq fun _ t h => ?_
    exact h.descend

theorem getValue [LinearOrder K] (h : Clean 0 t) (fuel : Nat) (key : K) :
    wlp tracked (BPlusTree.getValue fuel key) (fun _ t' => Clean 0 t') t := by
  unfold BPlusTree.getValue
  refine h.member.seq fun m t h => ?_
  rw [wlp_ite]
  split
  · exact (wlp_pure none).2 h
  · refine (h.findLeafPage fuel key false).seq fun leaf t h => ?_
    refine (h.getLeaf (Multiset.mem_singleton_self leaf)).seq_and fun p t hp h => ?_
    rw [hp]
    refine (unpin_clean (P := 0) h (by simp)).seq fun _ t h => ?_
    exact (wlp_pure _).2 h

theorem startNewTree [LinearOrder K] (h : Clean 0 t) (key : K) (value : V) :
    wlp tracked (BPlusTree.startNewTree key value) (fun _ t' => Clean 0 t') t := by
  unfold BPlusTree.startNewTree
  refine (newIndexPage (P := 0) h).seq fun x t h => ?_
  refine h.member.seq fun m t h => ?_
  refine (h.setLeaf (Multiset.mem_cons_self x 0) (by rfl)).seq fun _ t h => ?_
  refine h.unpin.seq fun _ t h => ?_
  refine (setRootPageID h (some x)).seq fun _ t h => ?_
  exact h.updateRootPageID

theorem split (h : Orderly P t) {N : NodeType} {node : PageIDType} (hn : node ∈ P) :
    wlp tracked (BPlusTree.split N node) (fun x t' => Orderly (x ::ₘ P) t') t := by
  unfold BPlusTree.split
  refine (h.getNode hn).seq_and fun n t _ h => ?_
  rw [wlp_ite]
  split
  · exact wlp_fail
  refine h.newIndexPage.seq fun x t h => ?_
  have hx : x ∈ x ::ₘ P := Multiset.mem_cons_self x P
  have hn : node ∈ x ::ₘ P := Multiset.mem_cons_of_mem hn
  cases N with
  | LeafPage =>
    refine h.member.seq fun m t h => ?_
    refine (h.setLeaf hx (by rfl)).seq fun _ t h => ?_
    refine (h.leaf_moveHalfTo hn hx).seq fun _ t h => ?_
    exact (wlp_pure x).2 h
  | InternalPage =>
    refine h.member.seq fun m t h => ?_
    refine (h.setInternal hx (by rfl)).seq fun _ t h => ?_
    refine (h.internal_moveHalfTo hn hx).seq fun _ t h => ?_
    exact (wlp_pure x).2 h

theorem populateNewRoot_pageID [Inhabited K] {p q : InternalPage K} {x y : PageIDType} {key : K}
    (h : p.populateNewRoot x key y = some q) : q.pageID = p.pageID := by
  unfold InternalPage.populateNewRoot at h
  split at h
  · obtain rfl := Option.some.inj h
    rfl
  · cases h

theorem insertNodeAfter_pageID {p q : InternalPage K} {x y : PageIDType} {key : K}
    (h : p.insertNodeAfter x key y = some q) : q.pageID = p.pageID := by
  unfold InternalPage.insertNodeAfter at h
  split at h
  · cases h
  · obtain rfl := Option.some.inj h
    rfl

theorem remove_pageID {p q : InternalPage K} {i : Nat} (h : p.remove i = some q) : q.pageID = p.pageID := by
  unfold InternalPage.remove at h
  split at h
  · obtain rfl := Option.some.inj h
    rfl
  · cases h

theorem insertIntoParent [Inhabited K] {fuel : Nat} {old new : PageIDType} {key : K} (h : Orderly P t) (ho : old ∈ P)
    (hn : new ∈ P) : wlp tracked (BPlusTree.insertIntoParent fuel old key new) (fun _ t' => Orderly P t') t := by
  induction fuel generalizing P t old new key with
  | zero => exact wlp_fail
  | succ fuel ih =>
    unfold BPlusTree.insertIntoParent
    refine (h.getNode ho).seq_and fun n t _ h => ?_
    refine (h.getNode hn).seq_and fun m t _ h => ?_
    cases n.parentPageID with
    | none =>
      refine h.newIndexPage.seq fun x t h => ?_
      refine h.member.seq fun mem t h => ?_
      refine (h.require _).seq_and fun root t hroot h => ?_
      refine (h.setInternal (Multiset.mem_cons_self x P) (populateNewRoot_pageID hroot)).seq fun _ t h => ?_
      refine (h.setParentPageID (Multiset.mem_cons_of_mem ho) _).seq fun _ t h => ?_
      refine (h.setParentPageID (Multiset.mem_cons_of_mem hn) _).seq fun _ t h => ?_
      refine (h.setRootPageID _).seq fun _ t h => ?_
      refine h.updateRootPageID.seq fun _ t h => ?_
      exact h.unpin
    | some parent =>
      refine (h.take parent).seq fun _ t h => ?_
      have hp : parent ∈ parent ::ₘ P := Multiset.mem_cons_self parent P
      refine (h.getInternal hp).seq_and fun p t hpid h => ?_
      refine (h.require _).seq_and fun q t hq h => ?_
      refine (h.setInternal hp ((insertNodeAfter_pageID hq).trans hpid)).seq fun _ t h => ?_
      have hend : ∀ t : TrackedTree K V, Orderly (parent ::ₘ P) t →
          wlp tracked (do unpinPage (← MisakiDB.getInternal parent).pageID true) (fun _ t' => Orderly P t') t := by
        intro t h
        refine (h.getInternal hp).seq_and fun p t hpid h => ?_
        exact h.unpin_own hpid
      rw [wlp_ite]
      split
      · refine (h.split hp).seq fun newInternal t h => ?_
        have hi : newInternal ∈ newInternal ::ₘ parent ::ₘ P := Multiset.mem_cons_self newInternal _
        refine (h.getInternal hi).seq_and fun r t _ h => ?_
        refine (h.require _).seq_and fun k t _ h => ?_
        refine (ih h (Multiset.mem_cons_of_mem hp) hi).seq fun _ t h => ?_
        refine (h.getInternal hi).seq_and fun r t hr h => ?_
        refine (h.unpin_own hr).seq fun _ t h => ?_
        exact hend t h
      · exact hend t h

/-- A key that is there leaves the pin of its leaf behind, with nothing to save. -/
theorem insertIntoLeaf [LinearOrder K] [Inhabited K] (h : Clean 0 t) (fuel : Nat) (key : K) (value : V) :
    wlp tracked (BPlusTree.insertIntoLeaf fuel key value) (fun _ t' => Clean 0 t') t := by
  unfold BPlusTree.insertIntoLeaf
  refine (h.findLeafPage fuel key false).seq fun leaf t h => ?_
  have hl : leaf ∈ ({leaf} : Multiset PageIDType) := Multiset.mem_singleton_self leaf
  refine (h.getLeaf hl).seq_and fun p t hp h => ?_
  rw [wlp_ite]
  split
  · exact (wlp_pure false).2 (forget (P := 0) h)
  have h : Orderly {leaf} t := h.mono (Multiset.zero_subset _)
  refine (h.setLeaf hl (by exact hp)).seq fun _ t h => ?_
  have hend : ∀ t : TrackedTree K V, Orderly {leaf} t →
      wlp tracked (do unpinPage (← MisakiDB.getLeaf leaf).pageID true; pure true) (fun _ t' => Clean 0 t') t := by
    intro t h
    refine (h.getLeaf hl).seq_and fun p t hp h => ?_
    refine (unpin_own (P := 0) h hp).seq fun _ t h => ?_
    exact (wlp_pure true).2 h
  rw [wlp_ite]
  split
  · refine (h.split hl).seq fun newLeaf t h => ?_
    have hl : leaf ∈ newLeaf ::ₘ {leaf} := Multiset.mem_cons_of_mem hl
    have hn : newLeaf ∈ newLeaf ::ₘ {leaf} := Multiset.mem_cons_self newLeaf _
    refine (h.getLeaf hl).seq_and fun p t hp h => ?_
    refine (h.getLeaf hn).seq_and fun q t hq h => ?_
    refine (h.setLeaf hn (by exact hq)).seq fun _ t h => ?_
    refine (h.setLeaf hl (by exact hp)).seq fun _ t h => ?_
    refine (h.require _).seq_and fun k t _ h => ?_
    refine (h.insertIntoParent hl hn).seq fun _ t h => ?_
    refine (h.getLeaf hn).seq_and fun q t hq h => ?_
    refine (h.unpin_own hq).seq fun _ t h => ?_
    exact hend t h
  · exact hend t h

theorem insert [LinearOrder K] [Inhabited K] (h : Clean 0 t) (fuel : Nat) (key : K) (value : V) :
    wlp tracked (BPlusTree.insert fuel key value) (fun _ t' => Clean 0 t') t := by
  unfold BPlusTree.insert
  refine h.member.seq fun m t h => ?_
  rw [wlp_ite]
  split
  · refine (h.startNewTree key value).seq fun _ t h => ?_
    exact (wlp_pure true).2 h
  · exact h.insertIntoLeaf fuel key value

theorem removeAndReturnOnlyChild (h : Orderly P t) (ha : a ∈ P) :
    wlp tracked (InternalPage.removeAndReturnOnlyChild a) (fun _ t' => Orderly P t') t := by
  unfold InternalPage.removeAndReturnOnlyChild
  refine (h.getInternal ha).seq_and fun p t hp h => ?_
  refine (h.require _).seq_and fun x t _ h => ?_
  refine (h.setInternal ha (by exact hp)).seq fun _ t h => ?_
  exact (wlp_pure x).2 h

theorem adjustRoot {node : PageIDType} (h : Orderly P t) (hn : node ∈ P) :
    wlp tracked (BPlusTree.adjustRoot node) (fun _ t' => Orderly P t') t := by
  unfold BPlusTree.adjustRoot
  refine (h.getNode hn).seq_and fun n t _ h => ?_
  rw [wlp_ite]
  split
  · exact wlp_fail
  rw [wlp_ite]
  split
  · refine (h.setRootPageID _).seq fun _ t h => ?_
    refine h.updateRootPageID.seq fun _ t h => ?_
    exact (wlp_pure true).2 h
  rw [wlp_ite]
  split
  · refine (h.removeAndReturnOnlyChild hn).seq fun x t h => ?_
    refine (h.setRootPageID _).seq fun _ t h => ?_
    refine h.updateRootPageID.seq fun _ t h => ?_
    refine (h.take x).seq fun _ t h => ?_
    refine (h.setParentPageID (Multiset.mem_cons_self x P) _).seq fun _ t h => ?_
    refine (h.getNode (Multiset.mem_cons_self x P)).seq_and fun r t hr h => ?_
    refine (h.unpin_own hr).seq fun _ t h => ?_
    exact (wlp_pure true).2 h
  · exact (wlp_pure false).2 h

/-- Of the two pages it returns, the one the caller did not name is the sibling. -/
theorem coalesce {N : NodeType} {sibling node parent : PageIDType} {index : Nat} {rec : PageIDType → IndexProg K V Bool}
    (h : Orderly P t) (hs : sibling ∈ P) (hn : node ∈ P) (hp : parent ∈ P)
    (hrec : ∀ t : TrackedTree K V, Orderly P t → wlp tracked (rec parent) (fun _ t' => Orderly P t') t) :
    wlp tracked (BPlusTree.coalesce rec N sibling node parent index) (fun r t' =>
      (r.1 = sibling ∨ r.2.1 = sibling) ∧ Orderly P t') t := by
  unfold BPlusTree.coalesce
  refine (h.getInternal hp).seq_and fun p t _ h => ?_
  refine (h.require _).seq_and fun x t _ h => ?_
  refine (h.getNode hs).seq_and fun n t _ h => ?_
  -- which of the two dies does not matter to the pins
  obtain ⟨a, b, hpair, ha, hb, hab⟩ : ∃ a b, (if x = n.pageID then (node, sibling) else (sibling, node)) = (a, b) ∧
      a ∈ P ∧ b ∈ P ∧ (a = sibling ∨ b = sibling) := by
    by_cases hx : x = n.pageID
    · exact ⟨node, sibling, if_pos hx, hn, hs, .inr rfl⟩
    · exact ⟨sibling, node, if_neg hx, hs, hn, .inl rfl⟩
  have hend : ∀ t : TrackedTree K V, Orderly P t →
      wlp tracked (do
        let p ← MisakiDB.require ((← MisakiDB.getInternal parent).remove index)
        MisakiDB.setInternal parent p
        if p.getSize < p.getMinSize then
          pure (a, b, ← rec parent)
        else
          pure (a, b, false)) (fun r t' => (r.1 = sibling ∨ r.2.1 = sibling) ∧ Orderly P t') t := by
    intro t h
    refine (h.getInternal hp).seq_and fun p t hpid h => ?_
    refine (h.require _).seq_and fun q t hq h => ?_
    refine (h.setInternal hp ((remove_pageID hq).trans hpid)).seq fun _ t h => ?_
    rw [wlp_ite]
    split
    · refine (hrec t h).seq fun needDelete t h => ?_
      exact (wlp_pure _).2 ⟨hab, h⟩
    · exact (wlp_pure _).2 ⟨hab, h⟩
  simp only [hpair]
  cases N with
  | LeafPage =>
    refine (h.leaf_moveAllTo hb ha).seq fun _ t h => ?_
    exact hend t h
  | InternalPage =>
    refine (h.require _).seq_and fun k t _ h => ?_
    refine (h.internal_moveAllTo hb ha k).seq fun _ t h => ?_
    exact hend t h

/-- The second pin of the parent is forgotten, and the first one keeps it. -/
theorem redistribute {N : NodeType} {sibling node parent : PageIDType} {index : Nat} (h : Orderly P t)
    (hs : sibling ∈ P) (hn : node ∈ P) (hp : parent ∈ P)
    (hparent : ∀ n, (t.store.page node).bind IndexFilePage.node = some n → n.parentPageID = some parent) :
    wlp tracked (BPlusTree.redistribute N sibling node index) (fun _ t' => Orderly P t') t := by
  unfold BPlusTree.redistribute
  refine (h.readNode hn).seq ?_
  rintro n t ⟨hnode, rfl⟩
  rw [hparent n hnode]
  refine (h.require _).seq_and fun x t hx h => ?_
  obtain rfl := Option.some.inj hx
  refine (h.fetch parent).seq fun _ t h => ?_
  have h := h.forget
  refine (h.getInternal hp).seq_and fun p t hpid h => ?_
  have hsetKey : ∀ (k : K) (t : TrackedTree K V), Orderly P t →
      wlp tracked (do MisakiDB.setInternal parent (← MisakiDB.require (p.setKeyAt index k)))
        (fun _ t' => Orderly P t') t := by
    intro k t h
    refine (h.require _).seq_and fun q t hq h => ?_
    exact h.setInternal hp ((setKeyAt_pageID hq).trans hpid)
  refine (h.require _).seq_and fun y t _ h => ?_
  rw [wlp_ite]
  split
  · cases N with
    | LeafPage =>
      refine (h.leaf_moveLastToFrontOf hs hn).seq fun _ t h => ?_
      refine (h.getLeaf hn).seq_and fun l t _ h => ?_
      refine (h.require _).seq_and fun k t _ h => ?_
      exact hsetKey k t h
    | InternalPage =>
      refine (h.getInternal hs).seq_and fun q t _ h => ?_
      refine (h.require _).seq_and fun lastKey t _ h => ?_
      refine (h.require _).seq_and fun k t _ h => ?_
      refine (h.internal_moveLastToFrontOf hs hn k).seq fun _ t h => ?_
      exact hsetKey lastKey t h
  · cases N with
    | LeafPage =>
      refine (h.leaf_moveFirstToEndOf hs hn).seq fun _ t h => ?_
      refine (h.getLeaf hs).seq_and fun l t _ h => ?_
      refine (h.require _).seq_and fun k t _ h => ?_
      exact hsetKey k t h
    | InternalPage =>
      refine (h.getInternal hs).seq_and fun q t _ h => ?_
      refine (h.require _).seq_and fun firstKey t _ h => ?_
      refine (h.require _).seq_and fun k t _ h => ?_
      refine (h.internal_moveFirstToEndOf hs hn k).seq fun _ t h => ?_
      exact hsetKey firstKey t h

theorem coalesceOrRedistribute {fuel : Nat} {N : NodeType} {node : PageIDType} (h : Orderly P t) (hn : node ∈ P) :
    wlp tracked (BPlusTree.coalesceOrRedistribute fuel N node) (fun _ t' => Orderly P t') t := by
  induction fuel generalizing P t N node with
  | zero => exact wlp_fail
  | succ fuel ih =>
    unfold BPlusTree.coalesceOrRedistribute
    refine (h.readNode hn).seq ?_
    rintro n t ⟨hnode, rfl⟩
    cases hpar : n.parentPageID with
    | none =>
      have hroot : wlp tracked (do let _ ← BPlusTree.adjustRoot node; pure true) (fun _ t' => Orderly P t') t := by
        refine (h.adjustRoot hn).seq fun _ t h => ?_
        exact (wlp_pure true).2 h
      simp only
      rw [wlp_ite]
      split
      · exact hroot
      rw [wlp_ite]
      split
      · exact hroot
      · exact (wlp_pure false).2 h
    | some parent =>
      -- two more pages are held, the parent and the sibling
      refine (wlp_and (h.take parent) (fetch_page t parent)).seq_and fun _ t1 h hpages1 => ?_
      refine (h.readInternal (Multiset.mem_cons_self parent P)).seq ?_
      rintro p t1 ⟨-, rfl⟩
      refine (require_same _).seq ?_
      rintro thisIndex t1 ⟨-, rfl⟩
      refine (require_same _).seq ?_
      rintro ⟨siblingIndex, middleIndex⟩ t1 ⟨-, rfl⟩
      refine (require_same _).seq ?_
      rintro sibling t1 ⟨-, rfl⟩
      refine (wlp_and (h.take sibling) (fetch_page t1 sibling)).seq_and fun _ t2 h hpages2 => ?_
      have hs : sibling ∈ sibling ::ₘ parent ::ₘ P := Multiset.mem_cons_self sibling _
      have hp : parent ∈ sibling ::ₘ parent ::ₘ P := by simp
      have hn : node ∈ sibling ::ₘ parent ::ₘ P := by simp [hn]
      refine (h.readNode hs).seq ?_
      rintro m t2 ⟨-, rfl⟩
      rw [wlp_ite]
      split
      · refine (h.coalesce hs hn hp fun t h => ih h hp).seq ?_
        rintro ⟨neighborNode, dead, needDelete⟩ t ⟨hside, h⟩
        refine (h.getInternal hp).seq_and fun q t hq h => ?_
        refine (h.swap.swap_unsaved.unpin_own hq).seq fun _ t h => ?_
        -- one of the two pages is still held, and the call or its caller gives it up
        have hend : ∀ t : TrackedTree K V, Orderly (sibling ::ₘ P) t → wlp tracked (do
            if neighborNode ≠ sibling then
              let nodeID := (← MisakiDB.getNode dead).pageID
              unpinPage nodeID true
              let _ ← MisakiDB.deleteIndexPage nodeID
              pure false
            else
              unpinPage (← MisakiDB.getNode neighborNode).pageID true
              pure true) (fun _ t' => Orderly P t') t := by
          intro t h
          have hs : sibling ∈ sibling ::ₘ P := Multiset.mem_cons_self sibling P
          by_cases hne : neighborNode = sibling
          · rw [if_neg (not_not.2 hne), hne]
            refine (h.getNode hs).seq_and fun m t hm h => ?_
            refine (h.unpin_own hm).seq fun _ t h => ?_
            exact (wlp_pure true).2 h
          -- one of the two is the sibling, so here it is `dead`
          · have hdead : dead = sibling := hside.resolve_left hne
            rw [if_pos hne, hdead]
            refine (h.getNode hs).seq_and fun m t hm h => ?_
            refine (h.unpin_own hm).seq fun _ t h => ?_
            refine (h.deleteIndexPage _).seq fun _ t h => ?_
            exact (wlp_pure false).2 h
        rw [wlp_ite]
        split
        · refine (h.deleteIndexPage _).seq fun _ t h => ?_
          exact hend t h
        · exact hend t h
      · have hparent : ∀ n, (t2.store.page node).bind IndexFilePage.node = some n → n.parentPageID = some parent := by
          intro n' hn'
          rw [hpages2, hpages1, hnode] at hn'
          exact Option.some.inj hn' ▸ hpar
        refine (h.redistribute hs hn hp hparent).seq fun _ t h => ?_
        refine (h.getNode hs).seq_and fun m t hm h => ?_
        refine (h.unpin_own hm).seq fun _ t h => ?_
        refine (h.getInternal (Multiset.mem_cons_self parent P)).seq_and fun q t hq h => ?_
        refine (h.unpin_own hq).seq fun _ t h => ?_
        exact (wlp_pure false).2 h

/-- A key that is not there leaves nothing to save, and its leaf goes as clean. -/
theorem remove [LinearOrder K] (h : Clean 0 t) (fuel : Nat) (key : K) :
    wlp tracked (BPlusTree.remove fuel key) (fun _ t' => Clean 0 t') t := by
  unfold BPlusTree.remove
  refine h.member.seq fun m t h => ?_
  rw [wlp_ite]
  split
  · exact (wlp_pure none).2 h
  refine (h.findLeafPage fuel key false).seq fun leaf t h => ?_
  have hl : leaf ∈ ({leaf} : Multiset PageIDType) := Multiset.mem_singleton_self leaf
  refine (h.getLeaf hl).seq_and fun p t hp h => ?_
  have hsame : (p.removeAndDeleteRecord key).2.pageID = leaf := by
    unfold LeafPage.removeAndDeleteRecord
    split <;> exact hp
  generalize p.removeAndDeleteRecord key = r at hsame ⊢
  obtain ⟨_ | removedValue, q⟩ := r
  · have hq : q.pageID = leaf := hsame
    simp only [hq]
    refine (unpin_clean (P := 0) h (by simp)).seq fun _ t h => ?_
    exact (wlp_pure none).2 h
  · have h : Orderly {leaf} t := h.mono (Multiset.zero_subset _)
    refine (h.setLeaf hl (by exact hsame)).seq fun _ t h => ?_
    have hend : ∀ (needDelete : Bool) (t : TrackedTree K V), Orderly {leaf} t → wlp tracked (do
        let leafID := (← MisakiDB.getLeaf leaf).pageID
        unpinPage leafID true
        if needDelete then
          let _ ← MisakiDB.deleteIndexPage leafID
        pure (some removedValue)) (fun _ t' => Clean 0 t') t := by
      intro needDelete t h
      refine (h.getLeaf hl).seq_and fun q t hq h => ?_
      refine (unpin_own (P := 0) h hq).seq fun _ t h => ?_
      rw [wlp_ite]
      split
      · refine (deleteIndexPage (P := 0) h _).seq fun _ t h => ?_
        exact (wlp_pure _).2 h
      · exact (wlp_pure _).2 h
    rw [wlp_ite]
    split
    · refine (h.coalesceOrRedistribute hl).seq fun needDelete t h => ?_
      exact hend needDelete t h
    · exact hend false t h

end Tidy

end Functions

/-! ## Calls on a tree in a pool that evicts -/

section Runs
abbrev IndexCache (K V : Type) := Cache PageIDType (IndexPage K V) BPlusTree

theorem Tidy.call [LinearOrder K] [Inhabited K] {t : TrackedTree K V} (h : Clean 0 t) (fuel : Nat) (c : Call K V) :
    wlp tracked (c.prog fuel) (fun _ t' => Clean 0 t') t := by
  cases c with
  | insert key value => exact (h.insert fuel key value).seq fun _ t h => (wlp_pure _).2 h
  | remove key => exact (h.remove fuel key).seq fun _ t h => (wlp_pure _).2 h
  | getValue key => exact (h.getValue fuel key).seq fun _ t h => (wlp_pure _).2 h

def cachedCall [LinearOrder K] [Inhabited K] (choose : Nat → List PageIDType) (c : Call K V) (d : IndexCache K V) :
    Option (Answer V × IndexCache K V) :=
  run (Cache.exec choose) (c.prog (bound d.store)) d

def cachedCalls [LinearOrder K] [Inhabited K] (choose : Nat → List PageIDType) : List (Call K V) → IndexCache K V →
    Option (List (Answer V) × IndexCache K V)
  | [], d => some ([], d)
  | c :: cs, d => do
    let (a, d') ← cachedCall choose c d
    let (as, d'') ← cachedCalls choose cs d'
    pure (a :: as, d'')

/-- Between two calls: the pool stands for the store, and owes its files nothing. -/
def StandsFor (d : IndexCache K V) (s : IndexStore K V) : Prop :=
  ∃ t : TrackedTree K V, t.store = s ∧ Clean 0 t ∧ Matches noneSpared t d

variable {d : IndexCache K V} {s s' : IndexStore K V}

namespace StandsFor

/-- A program that is followed by the rules ends on the pool as on the store. -/
theorem run {α : Type} {p : IndexProg K V α} {a : α} (h : StandsFor d s) (choose : Nat → List PageIDType)
    (hp : ∀ t : TrackedTree K V, Clean 0 t → wlp tracked p (fun _ t' => Clean 0 t') t)
    (hr : Prog.run PageStore.exec p s = some (a, s')) :
    ∃ d', Prog.run (Cache.exec choose) p d = some (a, d') ∧ StandsFor d' s' := by
  obtain ⟨t, rfl, hc, hm⟩ := h
  obtain ⟨t', d', hd, hm', hc', rfl⟩ := Tidy.on_cache (hp t hc) hm hr choose
  exact ⟨d', hd, t', rfl, hc', hm'⟩

theorem store (h : StandsFor d s) : d.store = s := by
  obtain ⟨t, rfl, -, hm⟩ := h
  exact hm.store

theorem call [LinearOrder K] [Inhabited K] (h : StandsFor d s) (choose : Nat → List PageIDType)
    {c : Call K V} {a : Answer V}
    (hr : MisakiDB.call c s = some (a, s')) :
    ∃ d', cachedCall choose c d = some (a, d') ∧ StandsFor d' s' := by
  unfold cachedCall
  rw [h.store]
  exact h.run choose (fun t ht => ht.call (bound s) c) hr

theorem calls [LinearOrder K] [Inhabited K] (h : StandsFor d s) (choose : Nat → List PageIDType) {cs : List (Call K V)}
    {as : List (Answer V)}
    (hr : MisakiDB.calls cs s = some (as, s')) : ∃ d', cachedCalls choose cs d = some (as, d') ∧ StandsFor d' s' := by
  induction cs generalizing d s as with
  | nil =>
    simp only [MisakiDB.calls, Option.some.injEq, Prod.mk.injEq] at hr
    obtain ⟨rfl, rfl⟩ := hr
    exact ⟨d, rfl, h⟩
  | cons c cs ih =>
    rcases hc : MisakiDB.call c s with _ | ⟨a, s1⟩
    · simp [MisakiDB.calls, hc] at hr
    rcases hcs : MisakiDB.calls cs s1 with _ | ⟨as', s2⟩
    · simp [MisakiDB.calls, hc, hcs] at hr
    simp only [MisakiDB.calls, hc, hcs, Option.bind_eq_bind, Option.bind_some, Option.pure_def, Option.some.injEq,
      Prod.mk.injEq] at hr
    obtain ⟨rfl, rfl⟩ := hr
    obtain ⟨d1, hd1, h1⟩ := h.call choose hc
    obtain ⟨d2, hd2, h2⟩ := ih h1 hcs
    exact ⟨d2, by simp [cachedCalls, hd1, hd2], h2⟩

theorem ofFiles (hpages : ∀ k p, s.page k = some p → KnowsID k p) (hpins : ∀ k, s.pins k = 0) :
    StandsFor (Cache.ofFiles s) s := by
  refine ⟨Tracked.ofStore s, rfl, ⟨rfl, fun k => ?_, fun k hk => ?_, fun k hk => ?_, hpages⟩, .ofFiles hpins⟩
  · exact Nat.zero_le _
  · cases hk
  · simp [Tracked.ofStore, hpins] at hk

theorem reopen (h : StandsFor d s) : StandsFor d.reopen s.reopen := by
  obtain ⟨t, rfl, hc, hm⟩ := h
  unfold Cache.reopen
  rw [hm.store]
  exact ofFiles hc.pages fun _ => rfl

/-- The pool of a new tree. -/
theorem create (leafMax internalMax : Nat) :
    StandsFor (Cache.ofFiles (BPlusTree.create leafMax internalMax))
    (BPlusTree.create leafMax internalMax : IndexStore K V) := by
  refine ofFiles (fun k p hp n hn => ?_) fun _ => rfl
  by_cases hk : k = 0
  · obtain rfl : IndexFilePage.header IndexFileHeader.init = p := by simpa [BPlusTree.create, hk] using hp
    cases hn
  · simp [BPlusTree.create, hk] at hp

end StandsFor

/-! ## Opening the file again -/

open BPlusTree

theorem construct_run {h : IndexFileHeader} (hh : s.page 0 = some (.header h)) (leafMaxSize internalMaxSize : Nat) :
    run PageStore.exec (BPlusTree.construct leafMaxSize internalMaxSize) s.reopen =
      some ((), s.reopen.withMember ⟨h.rootPageID, leafMaxSize, internalMaxSize⟩) := by
  have hpage : s.reopen.page 0 = some (.header h) := hh
  have hwp : wp PageStore.exec (BPlusTree.construct leafMaxSize internalMaxSize) (fun _ s' =>
      s' = s.reopen.withMember ⟨h.rootPageID, leafMaxSize, internalMaxSize⟩) s.reopen := by
    simp [BPlusTree.construct, hpage, wp_getHeader, PageStore.setPins, PageStore.withMember]
  obtain ⟨⟨⟩, s', hr, rfl⟩ := hwp
  exact hr

theorem TreeInv.reopen [LinearOrder K] [Inhabited K] {leafMax internalMax : Nat} {m : K → Option V} {orphans : List Nat}
    (hi : TreeInv leafMax internalMax s m orphans) : TreeInv leafMax internalMax s.reopen m orphans := by
  obtain ⟨hl, hm, pages, es, used, free, h, ha, hh, hperm, hmap⟩ := hi
  refine ⟨hl, hm, pages, es, used, free, h, ha.frame rfl (fun _ _ => rfl) fun x h0 hx => ?_,
    hh.congr (fun _ _ => rfl) rfl,
    hperm, hmap⟩
  exact (ha.unpinned x h0 hx).symm

theorem uses_require {α : Type} (o : Option α) : Uses PageOp.OnPool (require o : IndexProg K V α) := by
  cases o with
  | none => exact .fail
  | some a => exact .ret a

theorem uses_getLeaf (x : PageIDType) : Uses PageOp.OnPool (getLeaf x : IndexProg K V (LeafPage K V)) := by
  refine .bind (.perform (o := PageOp.getData x) trivial) fun p => ?_
  cases p with
  | leaf l => exact .ret l
  | _ => exact .fail

theorem uses_getInternal (x : PageIDType) : Uses PageOp.OnPool (getInternal x : IndexProg K V (InternalPage K)) := by
  refine .bind (.perform (o := PageOp.getData x) trivial) fun p => ?_
  cases p with
  | internal l => exact .ret l
  | _ => exact .fail

variable [LinearOrder K]

theorem uses_descend (key : K) (leftMost : Bool) (fuel : Nat) (page : PageIDType) :
    Uses PageOp.OnPool (BPlusTree.descend key leftMost fuel page : IndexProg K V PageIDType) := by
  induction fuel generalizing page with
  | zero => exact .fail
  | succ fuel ih =>
    unfold BPlusTree.descend
    refine .bind (.bind (.perform (o := PageOp.getData page) trivial) fun p => uses_require p.node) fun n => ?_
    split
    · exact .ret page
    · refine .bind (uses_getInternal page) fun p => .bind (uses_require _) fun child => ?_
      refine .bind (.perform (o := PageOp.unpinPage n.pageID false) trivial) fun _ => ?_
      exact .bind (.perform (o := PageOp.fetchPage child) trivial) fun _ => ih child

/-- A search asks for the root, and not for the capacities of the pages. -/
theorem getValue_withMember (fuel : Nat) (key : K) {r : BPlusTree} (hr : r.rootPageID = s.member.rootPageID) :
    run PageStore.exec (BPlusTree.getValue fuel key) (s.withMember r) =
      (run PageStore.exec (BPlusTree.getValue fuel key) s).map fun x => (x.1, x.2.withMember r) := by
  have hget : ∀ (α : Type) (f : BPlusTree → IndexProg K V α) (u : IndexStore K V),
      run PageStore.exec (getMember >>= f) u = run PageStore.exec (f u.member) u := fun _ _ _ => rfl
  unfold BPlusTree.getValue
  rw [hget, hget, PageStore.withMember_member, hr]
  split
  · rfl
  unfold BPlusTree.findLeafPage
  rw [Prog.bind_assoc, hget, hget, PageStore.withMember_member, hr]
  cases hroot : s.member.rootPageID with
  | none => rfl
  | some root =>
    -- from the root on the search is on the pool only
    refine PageStore.run_withMember ?_ s r
    refine .bind (.bind (.perform (o := PageOp.fetchPage root) trivial) fun _ =>
      uses_descend key false fuel root) fun leaf => ?_
    refine .bind (uses_getLeaf leaf) fun p =>
      .bind (.perform (o := PageOp.unpinPage p.pageID false) trivial) fun _ => ?_
    exact .ret _

variable [Inhabited K]

/-- What the file gives back: the pages, the root, and the entries. -/
structure Reopened (choose : Nat → List PageIDType) (s : IndexStore K V) (m : K → Option V) (leafMax internalMax : Nat)
    (d : IndexCache K V) : Prop where
  pages : d.store.page = s.page
  root : d.store.member.rootPageID = s.member.rootPageID
  entries : ∀ keys : List K, ∃ d', cachedCalls choose (keys.map .getValue) d = some (keys.map fun k => .found (m k), d')
  goes_on : leafMax = s.member.leafMaxSize → internalMax = s.member.internalMaxSize →
    ∀ cs, ∃ d', cachedCalls choose cs d = some ((mapCalls cs m).1, d')

theorem getValues_withMember {s : IndexStore K V} {m : K → Option V} {orphans : List Nat} {leafMax internalMax : Nat}
    (hi : TreeInv leafMax internalMax s m orphans) {r : BPlusTree} (hr : r.rootPageID = s.member.rootPageID)
    (keys : List K) :
    calls (keys.map .getValue) (s.withMember r) = some (keys.map fun k => .found (m k), s.withMember r) := by
  induction keys with
  | nil => rfl
  | cons k keys ih =>
    have hget : call (.getValue k) (s.withMember r) = some (.found (m k), s.withMember r) := by
      obtain ⟨-, -, pages, es, used, free, h, ha, hh, hperm, rfl⟩ := hi
      obtain ⟨v, s', hrun, rfl, hs⟩ := getValue_spec k hh ha hperm ha.bound_eq.ge
      rw [hs] at hrun
      have hb : bound (s.withMember r) = bound s := rfl
      apply run_then Answer.found
      rw [hb, getValue_withMember _ _ hr, hrun]
      rfl
    simp [calls, hget, ih]

/-- A tree is made on the file that the pool leaves. -/
theorem StandsFor.reconstruct {m : K → Option V} {orphans : List Nat} {leafMax internalMax : Nat} (h : StandsFor d s)
    (hi : TreeInv leafMax internalMax s m orphans) (choose : Nat → List PageIDType) (leafMax' internalMax' : Nat) :
    ∃ d', Prog.run (Cache.exec choose) (BPlusTree.construct leafMax' internalMax') d.reopen = some ((), d') ∧
      StandsFor d' (s.reopen.withMember ⟨s.member.rootPageID, leafMax', internalMax'⟩) := by
  obtain ⟨⟨hd, hheader, hroot⟩, -⟩ := hi.shape
  rw [← hroot]
  exact h.reopen.run choose (fun t ht => ht.construct leafMax' internalMax') (construct_run hheader leafMax' internalMax')

theorem StandsFor.construct {m : K → Option V} {orphans : List Nat} {leafMax internalMax : Nat} (h : StandsFor d s)
    (hi : TreeInv leafMax internalMax s m orphans) (h2 : 2 ≤ leafMax) (choose : Nat → List PageIDType)
    (leafMax' internalMax' : Nat) :
    ∃ d', Prog.run (Cache.exec choose) (BPlusTree.construct leafMax' internalMax') d.reopen = some ((), d') ∧
      Reopened choose s m leafMax' internalMax' d' := by
  obtain ⟨d', hrun, hd'⟩ := h.reconstruct hi choose leafMax' internalMax'
  refine ⟨d', hrun, (congrArg PageStore.page hd'.store).trans rfl, ?_, fun keys => ?_, fun hl hm cs => ?_⟩
  · exact (congrArg (fun u : IndexStore K V => u.member.rootPageID) hd'.store).trans rfl
  · have hroot : (⟨s.member.rootPageID, leafMax', internalMax'⟩ : BPlusTree).rootPageID = s.reopen.member.rootPageID :=
      rfl
    obtain ⟨d2, h2, -⟩ := hd'.calls choose (getValues_withMember hi.reopen hroot keys)
    exact ⟨d2, h2⟩
  · have hsame : s.reopen.withMember ⟨s.member.rootPageID, leafMax', internalMax'⟩ = s.reopen := by
      rw [hl, hm]
      rfl
    rw [hsame] at hd'
    obtain ⟨s2, -, hcs, -⟩ := hi.reopen.calls h2 cs
    obtain ⟨d2, hd2, -⟩ := hd'.calls choose hcs
    exact ⟨d2, hd2⟩

/-- The index survives evictions and restarts. Whatever pages the pool evicts, the calls
answer as without evictions; and a tree made on the file that the pool leaves holds the
same entries. -/
theorem index_survives (leafMax internalMax : Nat) (choose choose' : Nat → List PageIDType) (cs : List (Call K V)) :
    (∀ as s, calls cs (create leafMax internalMax) = some (as, s) →
      ∃ d, cachedCalls choose cs (Cache.ofFiles (create leafMax internalMax)) = some (as, d)) ∧
    (2 ≤ leafMax → ∃ as s d, calls cs (create leafMax internalMax) = some (as, s) ∧
      cachedCalls choose cs (Cache.ofFiles (create leafMax internalMax)) = some (as, d) ∧
      ∀ leafMax' internalMax', ∃ d',
        Prog.run (Cache.exec choose') (BPlusTree.construct leafMax' internalMax') d.reopen = some ((), d') ∧
        Reopened choose' s (mapCalls cs fun _ => none).2 leafMax' internalMax' d') := by
  have hnew : StandsFor (Cache.ofFiles (create leafMax internalMax)) (create leafMax internalMax : IndexStore K V) :=
    .create leafMax internalMax
  constructor
  · intro as s hrun
    obtain ⟨d, hd, -⟩ := hnew.calls choose hrun
    exact ⟨d, hd⟩
  · intro h2
    obtain ⟨s, orphans, hrun, hi⟩ := (TreeInv.create leafMax internalMax).calls h2 cs
    obtain ⟨d, hd, hs⟩ := hnew.calls choose hrun
    exact ⟨_, s, d, hrun, hd, fun leafMax' internalMax' => hs.construct hi h2 choose' leafMax' internalMax'⟩

/-- With a pool that keeps no page it may evict. -/
theorem index_survives_split : ∃ as s d,
    calls [.insert 1 10, .insert 2 20, .insert 3 30, .remove 1] (create 2 4 : IndexStore Nat Nat) = some (as, s) ∧
    cachedCalls (fun _ => [0, 1, 2, 3]) [.insert 1 10, .insert 2 20, .insert 3 30, .remove 1]
      (Cache.ofFiles (create 2 4)) = some (as, d) ∧
    ∀ leafMax' internalMax', ∃ d',
      Prog.run (Cache.exec fun _ => []) (BPlusTree.construct leafMax' internalMax') d.reopen = some ((), d') ∧
      Reopened (fun _ => []) s (mapCalls [.insert 1 10, .insert 2 20, .insert 3 30, .remove 1] fun _ => none).2
        leafMax' internalMax' d' :=
  (index_survives 2 4 (fun _ => [0, 1, 2, 3]) (fun _ => []) _).2 (le_refl 2)

end Runs

end

end MisakiDB
