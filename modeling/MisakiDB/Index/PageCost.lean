import MisakiDB.Index.Height
import Mathlib.Data.Nat.Log
/-!
# How many pages a call asks for

`priced` runs the tree's programs and counts the pages they ask the pool for. A call
goes down the tree once and up at most once, and at each level moves at most the
children of one page. The bound for a level needs that no internal page is full
between two levels: `Spent` says which page may be full, and what has been paid.
With the height (`Tree.fewest_le`) a call pays for no more levels than a tree with these
keys can have (`pages_per_call`), which is at most `log₂ n` for `n` keys
(`pages_per_call_log`).
-/

namespace MisakiDB

open Prog PageStore

section
variable {K V : Type}

/-- The calls by which a program gets a page from its pool. -/
def asks {κ π ρ : Type} : PageOp κ π ρ → Bool
  | .fetchPage _ => true
  | .appendNewPage _ => true
  | _ => false

/-- A store, and the pages asked for so far. -/
abbrev Priced (K V : Type) := IndexStore K V × Nat

abbrev priced : Handler (PageOp PageIDType (IndexPage K V) BPlusTree) PageOp.Res (Priced K V) := counted asks exec

/-- At most `b` pages were asked for, and of the internal pages, of capacity `B`, only
`full` may be full. -/
structure Spent (B : Nat) (full : Option PageIDType) (b : Nat) (t : Priced K V) : Prop where
  capacity : internalMax t.1 = B
  pages : ∀ x p, t.1.page x = some (.internal p) →
    p.maxSize = B ∧ p.array.length ≤ B ∧ (full ≠ some x → p.array.length < B)
  cost : t.2 ≤ b

/-! ## Single calls to the pool -/

section Pool
variable {α : Type} {B b b' : Nat} {full : Option PageIDType} {t : Priced K V} {k : PageIDType}

theorem priced_require (o : Option α) : wlp priced (require o) (fun a t' => o = some a ∧ t' = t) t := by
  cases o with
  | none => exact wlp_fail
  | some a => exact (wlp_pure a).2 ⟨rfl, rfl⟩

theorem priced_getMember : wlp priced getMember (fun r t' => r = t.1.member ∧ t' = t) t :=
  (wlp_counted_perform PageOp.getMember).2 (wlp_getMember.2 ⟨rfl, rfl⟩)

theorem priced_getData (k : PageIDType) : wlp priced (getData k) (fun p t' => t.1.page k = some p ∧ t' = t) t :=
  (wlp_counted_perform (PageOp.getData k)).2 (wlp_getData.2 fun _ hp => ⟨hp, rfl⟩)

theorem priced_getHeader : wlp priced getHeader (fun h t' => t.1.page 0 = some (.header h) ∧ t' = t) t := by
  unfold getHeader
  refine (priced_getData 0).read fun p hp => ?_
  cases p with
  | header h => exact (wlp_pure h).2 ⟨hp, rfl⟩
  | _ => exact wlp_fail

theorem priced_getFreePage (k : PageIDType) :
    wlp priced (getFreePage k) (fun f t' => t.1.page k = some (.free f) ∧ t' = t) t := by
  unfold getFreePage
  refine (priced_getData k).read fun p hp => ?_
  cases p with
  | free f => exact (wlp_pure f).2 ⟨hp, rfl⟩
  | _ => exact wlp_fail

theorem priced_getLeaf (k : PageIDType) :
    wlp priced (getLeaf k) (fun p t' => t.1.page k = some (.leaf p) ∧ t' = t) t := by
  unfold getLeaf
  refine (priced_getData k).read fun p hp => ?_
  cases p with
  | leaf l => exact (wlp_pure l).2 ⟨hp, rfl⟩
  | _ => exact wlp_fail

theorem priced_getInternal (k : PageIDType) :
    wlp priced (getInternal k) (fun p t' => t.1.page k = some (.internal p) ∧ t' = t) t := by
  unfold getInternal
  refine (priced_getData k).read fun p hp => ?_
  cases p with
  | internal i => exact (wlp_pure i).2 ⟨hp, rfl⟩
  | _ => exact wlp_fail

theorem priced_getNode (k : PageIDType) :
    wlp priced (getNode k) (fun n t' => (t.1.page k).bind IndexFilePage.node = some n ∧ t' = t) t := by
  unfold getNode
  refine (priced_getData k).read fun p hp => ?_
  refine wlp_conseq (priced_require p.node) fun n t' h => ⟨?_, h.2⟩
  rw [hp]
  exact h.1

theorem priced_getPinCount (k : PageIDType) : wlp priced (getPinCount k) (fun n t' => n = t.1.pins k ∧ t' = t) t := by
  refine (wlp_counted_perform (PageOp.getPinCount k)).2 ((wlp_perform (PageOp.getPinCount k)).2 fun x hx => ?_)
  obtain ⟨_, _, rfl⟩ := Option.map_eq_some_iff.1 hx
  exact ⟨rfl, rfl⟩

namespace Spent

theorem four_le (h : Spent B full b t) : 4 ≤ B := by
  rw [← h.capacity]
  exact le_max_right _ 4

theorem mono (h : Spent B full b t) (hb : b ≤ b') : Spent B full b' t := { h with cost := le_trans h.cost hb }

theorem fetch (h : Spent B full b t) (k : PageIDType) :
    wlp priced (fetchPage k) (fun _ t' => Spent B full (b + 1) t' ∧ t'.1.page = t.1.page) t :=
  (wlp_counted_perform (PageOp.fetchPage k)).2 (wlp_fetchPage.2 fun _ _ =>
    ⟨⟨h.capacity, h.pages, Nat.succ_le_succ h.cost⟩, rfl⟩)

theorem unpin (h : Spent B full b t) (k : PageIDType) (d : Bool) :
    wlp priced (unpinPage k d) (fun _ t' => Spent B full b t' ∧ t'.1.page = t.1.page) t :=
  (wlp_counted_perform (PageOp.unpinPage k d)).2 (wlp_unpinPage.2 fun _ => ⟨⟨h.capacity, h.pages, h.cost⟩, rfl⟩)

theorem setMember (h : Spent B full b t) {r : BPlusTree} (hr : r.internalMaxSize = t.1.member.internalMaxSize) :
    wlp priced (MisakiDB.setMember r) (fun _ t' => Spent B full b t') t :=
  (wlp_counted_perform (PageOp.setMember r)).2 (wlp_setMember.2
    ⟨by rw [← h.capacity]; exact congrArg (max · 4) hr, h.pages, h.cost⟩)

/-- A page is written; `full'` may be full after it. -/
theorem write (h : Spent B full b t) {p : IndexPage K V} {full' : Option PageIDType}
    (hfull : ∀ x, x ≠ k → full' ≠ some x → full ≠ some x)
    (hp : ∀ q, p = .internal q → q.maxSize = B ∧ q.array.length ≤ B ∧ (full' ≠ some k → q.array.length < B)) :
    wlp priced (setData k p) (fun _ t' => Spent B full' b t' ∧ t'.1.page = Function.update t.1.page k (some p)) t := by
  refine (wlp_counted_perform (PageOp.setData k p)).2 (wlp_setData.2 fun _ _ => ⟨⟨h.capacity, ?_, h.cost⟩, rfl⟩)
  intro x q hq
  rw [setPage_page] at hq
  by_cases hx : x = k
  · subst hx
    rw [Function.update_self] at hq
    exact hp q (Option.some.inj hq)
  · rw [Function.update_of_ne hx] at hq
    obtain ⟨hmax, hle, hlt⟩ := h.pages x q hq
    exact ⟨hmax, hle, fun hne => hlt (hfull x hx hne)⟩

/-- A page that is not an internal one. -/
theorem setOther (h : Spent B full b t) {p : IndexPage K V} (hp : ∀ q, p ≠ .internal q) :
    wlp priced (setData k p) (fun _ t' => Spent B full b t' ∧ t'.1.page = Function.update t.1.page k (some p)) t :=
  h.write (fun _ _ hne => hne) fun q hq => absurd hq (hp q)

theorem setLeaf (h : Spent B full b t) (k : PageIDType) (p : LeafPage K V) :
    wlp priced (MisakiDB.setLeaf k p) (fun _ t' => Spent B full b t') t := by
  refine wlp_conseq (h.setOther (p := .leaf p) fun q hq => ?_) fun _ _ h => h.1
  cases hq

section
variable {p : InternalPage K}

/-- An internal page with room left. -/
theorem setInternal (h : Spent B full b t) (hmax : p.maxSize = B) (hlt : p.array.length < B) :
    wlp priced (MisakiDB.setInternal k p)
      (fun _ t' => Spent B full b t' ∧ t'.1.page = Function.update t.1.page k (some (.internal p))) t := by
  refine h.write (fun _ _ hne => hne) fun q hq => ?_
  cases hq
  exact ⟨hmax, hlt.le, fun _ => hlt⟩

/-- An internal page gets full. -/
theorem fill (h : Spent B none b t) (hmax : p.maxSize = B) (hle : p.array.length ≤ B) :
    wlp priced (MisakiDB.setInternal k p) (fun _ t' => Spent B (some k) b t') t := by
  refine wlp_conseq (h.write (p := .internal p) (fun x _ _ => (Option.some_ne_none x).symm) fun q hq => ?_) fun _ _ h => h.1
  cases hq
  exact ⟨hmax, hle, fun hne => absurd rfl hne⟩

/-- The full page has room again. -/
theorem settle (h : Spent B (some k) b t) (hmax : p.maxSize = B) (hlt : p.array.length < B) :
    wlp priced (MisakiDB.setInternal k p) (fun _ t' => Spent B none b t') t := by
  refine wlp_conseq (h.write (p := .internal p) (fun x hx _ he => ?_) fun q hq => ?_) fun _ _ h => h.1
  · exact hx (Option.some.inj he).symm
  · cases hq
    exact ⟨hmax, hlt.le, fun _ => hlt⟩

end

theorem setParentPageID (h : Spent B full b t) (k : PageIDType) (parent : Option PageIDType) :
    wlp priced (MisakiDB.setParentPageID k parent) (fun _ t' => Spent B full b t' ∧ ∀ x, SameBody t.1 t'.1 x) t := by
  unfold MisakiDB.setParentPageID
  refine (priced_getData k).read fun p hp => ?_
  refine wlp_conseq (h.write (p := p.setParentPageID parent) (fun _ _ hne => hne) fun q hq => ?_) fun _ t' h' => ?_
  · cases p with
    | internal r =>
      cases hq
      exact h.pages k r hp
    | _ => cases hq
  · refine ⟨h'.1, fun x => ?_⟩
    rw [SameBody, h'.2]
    by_cases hx : x = k
    · rw [hx, Function.update_self, hp, Option.map_some, Option.map_some, setParentPageID_twice]
    · rw [Function.update_of_ne hx]

end Spent

end Pool

/-! ## The file manager -/

section File
variable {B b : Nat} {full : Option PageIDType} {t : Priced K V}

namespace Spent

/-- The header, and the new page. -/
theorem newIndexPage (h : Spent B full b t) :
    wlp priced MisakiDB.newIndexPage (fun _ t' => Spent B full (b + 2) t') t := by
  unfold MisakiDB.newIndexPage
  refine (h.fetch 0).seq fun _ t h => ?_
  refine priced_getHeader.read fun header _ => ?_
  have hend : ∀ (x : PageIDType) (t : Priced K V), Spent B full (b + 2) t →
      wlp priced (do unpinPage 0 true; pure x) (fun _ t' => Spent B full (b + 2) t') t := by
    intro x t h
    refine (h.unpin 0 true).seq fun _ t h => ?_
    exact (wlp_pure x).2 h.1
  cases header.freePageListHeader with
  | none =>
    refine wlp.seq (Q := fun _ t' => Spent B full (b + 2) t') ?_ fun _ t h => ?_
    · refine (wlp_counted_perform (PageOp.appendNewPage _)).2 (wlp_appendNewPage.2 fun hnone => ?_)
      refine ⟨h.1.capacity, fun x q hq => h.1.pages x q ?_, Nat.succ_le_succ h.1.cost⟩
      -- the new page is zeroed
      by_cases hx : x = header.nextPageID
      · subst hx
        rw [setPins_page, setPage_page, Function.update_self] at hq
        cases hq
      · rwa [setPins_page, setPage_page, Function.update_of_ne hx] at hq
    · refine (h.setOther fun q hq => ?_).seq fun _ t h => hend _ t h.1
      cases hq
  | some free =>
    refine (h.1.fetch free).seq fun _ t h => ?_
    refine (priced_getFreePage free).read fun newPage _ => ?_
    refine (h.1.setOther fun q hq => ?_).seq fun _ t h => ?_
    · cases hq
    refine (h.1.setOther fun q hq => ?_).seq fun _ t h => hend _ t h.1
    cases hq

/-- The header, and the page. -/
theorem deleteIndexPage (h : Spent B full b t) (x : PageIDType) :
    wlp priced (MisakiDB.deleteIndexPage x) (fun _ t' => Spent B full (b + 2) t') t := by
  unfold MisakiDB.deleteIndexPage
  refine (h.fetch 0).seq fun _ t h => ?_
  refine priced_getHeader.read fun header _ => ?_
  rw [wlp_ite]
  split
  · refine (h.1.unpin 0 false).seq fun _ t h => ?_
    exact (wlp_pure false).2 (h.1.mono (Nat.le_succ _))
  refine (h.1.fetch x).seq fun _ t h => ?_
  have hrefuse : ∀ t : Priced K V, Spent B full (b + 2) t →
      wlp priced (do unpinPage x false; unpinPage 0 false; pure false) (fun _ t' => Spent B full (b + 2) t') t := by
    intro t h
    refine (h.unpin x false).seq fun _ t h => ?_
    refine (h.1.unpin 0 false).seq fun _ t h => ?_
    exact (wlp_pure false).2 h.1
  refine (priced_getPinCount x).read fun n _ => ?_
  rw [wlp_ite]
  split
  · exact hrefuse t h.1
  have hdelete : wlp priced (do
      setData x (.free { nextFreePageID := header.freePageListHeader })
      setData 0 (.header { header with freePageListHeader := some x })
      unpinPage x true
      unpinPage 0 true
      pure true) (fun _ t' => Spent B full (b + 2) t') t := by
    refine (h.1.setOther fun q hq => ?_).seq fun _ t h => ?_
    · cases hq
    refine (h.1.setOther fun q hq => ?_).seq fun _ t h => ?_
    · cases hq
    refine (h.1.unpin x true).seq fun _ t h => ?_
    refine (h.1.unpin 0 true).seq fun _ t h => ?_
    exact (wlp_pure true).2 h.1
  refine (priced_getData x).read fun p _ => ?_
  cases p with
  | free f => exact hrefuse t h.1
  | _ => exact hdelete

end Spent

end File

/-! ## Moving entries -/

section Moves
variable {B b : Nat} {full : Option PageIDType} {t : Priced K V} {x y : PageIDType}

namespace Spent

theorem leaf_moveHalfTo (h : Spent B full b t) (x y : PageIDType) :
    wlp priced (LeafPage.moveHalfTo x y) (fun _ t' => Spent B full b t') t := by
  unfold LeafPage.moveHalfTo
  refine (priced_getLeaf x).read fun p _ => ?_
  refine (priced_getLeaf y).read fun q _ => ?_
  refine (h.setLeaf y _).seq fun _ t h => ?_
  exact h.setLeaf x _

theorem leaf_moveAllTo (h : Spent B full b t) (x y : PageIDType) :
    wlp priced (LeafPage.moveAllTo x y) (fun _ t' => Spent B full b t') t := by
  unfold LeafPage.moveAllTo
  refine (priced_getLeaf x).read fun p _ => ?_
  refine (priced_getLeaf y).read fun q _ => ?_
  refine (h.setLeaf y _).seq fun _ t h => ?_
  refine (h.setLeaf x _).seq fun _ t h => ?_
  refine (priced_getLeaf y).read fun q _ => ?_
  exact h.setLeaf y _

theorem leaf_moveFirstToEndOf (h : Spent B full b t) (x y : PageIDType) :
    wlp priced (LeafPage.moveFirstToEndOf x y) (fun _ t' => Spent B full b t') t := by
  unfold LeafPage.moveFirstToEndOf
  refine (priced_getLeaf x).read fun p _ => ?_
  refine (priced_require _).read fun first _ => ?_
  refine (priced_getLeaf y).read fun q _ => ?_
  refine (h.setLeaf y _).seq fun _ t h => ?_
  exact h.setLeaf x _

theorem leaf_moveLastToFrontOf (h : Spent B full b t) (x y : PageIDType) :
    wlp priced (LeafPage.moveLastToFrontOf x y) (fun _ t' => Spent B full b t') t := by
  unfold LeafPage.moveLastToFrontOf
  refine (priced_getLeaf x).read fun p _ => ?_
  refine (priced_require _).read fun last _ => ?_
  refine (priced_getLeaf y).read fun q _ => ?_
  refine (h.setLeaf y _).seq fun _ t h => ?_
  exact h.setLeaf x _

theorem adopt (h : Spent B full b t) (this child : PageIDType) :
    wlp priced (InternalPage.adopt this child) (fun _ t' => Spent B full (b + 1) t' ∧ ∀ x, SameBody t.1 t'.1 x) t := by
  unfold InternalPage.adopt
  refine (h.fetch child).seq fun _ t1 h1 => ?_
  refine (priced_getInternal this).seq ?_
  rintro p t1 ⟨-, rfl⟩
  refine wlp_conseq (h1.1.setParentPageID child _) fun _ t2 h2 => ⟨h2.1, fun x => ?_⟩
  exact (SameBody.of_eq (congrFun h1.2 x)).trans (h2.2 x)

/-- Every entry that is copied costs its child, which gets a new parent. -/
theorem copyNFrom (h : Spent B full b t) (this : PageIDType) (items : List (K × PageIDType))
    (hroom : ∀ q, t.1.page this = some (.internal q) → q.array.length + items.length < B) :
    wlp priced (InternalPage.copyNFrom this items) (fun _ t' => Spent B full (b + items.length) t') t := by
  induction items generalizing b t with
  | nil => exact (wlp_pure ()).2 h
  | cons e items ih =>
    unfold InternalPage.copyNFrom
    refine (priced_getInternal this).read fun q hq => ?_
    have hlen := hroom q hq
    rw [List.length_cons] at hlen ⊢
    have happend : (q.append e).array.length = q.array.length + 1 := by simp [InternalPage.append]
    refine (h.setInternal (p := q.append e) (h.pages this q hq).1 (by omega)).seq fun _ t1 h1 => ?_
    refine (h1.1.adopt this e.2).seq fun _ t2 h2 => ?_
    refine (h2.1.unpin e.2 true).seq fun _ t3 h3 => ?_
    have hthis : t1.1.page this = some (.internal (q.append e)) := by rw [h1.2, Function.update_self]
    refine wlp_conseq (ih h3.1 fun r hr => ?_) fun _ _ h => h.mono (by omega)
    obtain ⟨a, ha⟩ := (h2.2 this).internal hthis
    rw [h3.2, ha] at hr
    cases hr
    have : (q.append e).array.length + items.length < B := by omega
    exact this

theorem setKeyAt_length {p q : InternalPage K} {i : Nat} {key : K} (h : p.setKeyAt i key = some q) :
    q.maxSize = p.maxSize ∧ q.array.length = p.array.length := by
  unfold InternalPage.setKeyAt at h
  split at h
  · obtain rfl := Option.some.inj h
    exact ⟨rfl, List.length_modify _ _ _⟩
  · cases h

/-- The full page gives its upper half to an empty one. -/
theorem internal_moveHalfTo (h : Spent B (some x) b t) (hy : ∃ q, t.1.page y = some (.internal q) ∧ q.array = []) :
    wlp priced (InternalPage.moveHalfTo x y) (fun _ t' => Spent B none (b + B) t') t := by
  unfold InternalPage.moveHalfTo
  refine (priced_getInternal x).read fun p hp => ?_
  obtain ⟨hmax, hle, -⟩ := h.pages x p hp
  have h4 := h.four_le
  have hdrop : (p.array.drop ((p.getSize + 1) / 2)).length = p.array.length - (p.array.length + 1) / 2 :=
    List.length_drop
  refine (h.copyNFrom y _ fun q hq => ?_).seq fun _ t h => ?_
  · obtain ⟨q', hq', hnil⟩ := hy
    rw [hq'] at hq
    cases hq
    rw [hnil, hdrop, List.length_nil]
    omega
  · refine wlp_conseq (h.settle (p := p.setSize _) hmax ?_) fun _ _ h => h.mono (by omega)
    have : (p.setSize ((p.getSize + 1) / 2)).array.length ≤ (p.array.length + 1) / 2 := List.length_take_le _ _
    omega

/-- All entries go to a page that has room for them. -/
theorem internal_moveAllTo (h : Spent B full b t) (key : K) (hroom : ∀ p q, t.1.page x = some (.internal p) →
    t.1.page y = some (.internal q) → p.array.length + q.array.length < B) :
    wlp priced (InternalPage.moveAllTo x y key) (fun _ t' => Spent B full (b + B) t') t := by
  unfold InternalPage.moveAllTo
  refine (priced_getInternal x).read fun p hp => ?_
  refine (priced_require _).read fun p' hp' => ?_
  obtain ⟨hmax, hlen⟩ := setKeyAt_length hp'
  rw [(h.pages x p hp).1] at hmax
  have hle := (h.pages x p hp).2.1
  have h4 := h.four_le
  unfold MisakiDB.setInternal
  refine (h.write (p := .internal p') (fun _ _ hne => hne) fun q hq => ?_).seq fun _ t1 h1 => ?_
  · cases hq
    rw [hlen]
    exact ⟨hmax, (h.pages x p hp).2⟩
  refine (h1.1.copyNFrom y _ fun q hq => ?_).seq fun _ t2 h2 => ?_
  · rw [h1.2] at hq
    by_cases hyx : y = x
    · -- the two are one page
      subst hyx
      rw [Function.update_self] at hq
      cases hq
      have := hroom p p hp hp
      omega
    · rw [Function.update_of_ne hyx] at hq
      have := hroom p q hp hq
      omega
  · refine wlp_conseq (h2.setInternal (p := p'.setSize 0) hmax ?_) fun _ _ h => h.1.mono (by omega)
    exact lt_of_lt_of_le (by decide : 0 < 4) h4

theorem adopt_own (h : Spent B full b t) (this child : PageIDType) :
    wlp priced (do InternalPage.adopt this child; unpinPage (← getNode child).pageID true)
      (fun _ t' => Spent B full (b + 1) t') t := by
  refine (h.adopt this child).seq fun _ t h => ?_
  refine (priced_getNode child).read fun n _ => ?_
  exact wlp_conseq (h.1.unpin n.pageID true) fun _ _ h => h.1

theorem copyLastFrom (h : Spent B full b t) (pair : K × PageIDType)
    (hroom : ∀ q, t.1.page x = some (.internal q) → q.array.length + 1 < B) :
    wlp priced (InternalPage.copyLastFrom x pair) (fun _ t' => Spent B full (b + 1) t') t := by
  unfold InternalPage.copyLastFrom
  refine (priced_getInternal x).read fun q hq => ?_
  refine (h.setInternal (p := q.append pair) (h.pages x q hq).1 ?_).seq fun _ t h => ?_
  · rw [InternalPage.append, List.length_append]
    exact hroom q hq
  · exact h.1.adopt_own x pair.2

theorem copyFirstFrom (h : Spent B full b t) (pair : K × PageIDType)
    (hroom : ∀ q, t.1.page x = some (.internal q) → q.array.length + 1 < B) :
    wlp priced (InternalPage.copyFirstFrom x pair) (fun _ t' => Spent B full (b + 1) t') t := by
  unfold InternalPage.copyFirstFrom
  refine (priced_getInternal x).read fun q hq => ?_
  refine (h.setInternal (p := q.prepend pair) (h.pages x q hq).1 (hroom q hq)).seq fun _ t h => ?_
  exact h.1.adopt_own x pair.2

/-- The borrower is short, so it has room for one entry. -/
theorem internal_moveFirstToEndOf (h : Spent B none b t) (key : K)
    (hroom : ∀ q, t.1.page y = some (.internal q) → q.array.length + 1 < B) :
    wlp priced (InternalPage.moveFirstToEndOf x y key) (fun _ t' => Spent B none (b + 1) t') t := by
  unfold InternalPage.moveFirstToEndOf
  refine (priced_getInternal x).read fun p hp => ?_
  obtain ⟨hmax, -, hlt⟩ := h.pages x p hp
  have hlt := hlt (Option.some_ne_none x).symm
  refine (priced_require _).read fun first _ => ?_
  refine (h.copyLastFrom first hroom).seq fun _ t h => ?_
  refine (priced_getInternal y).read fun q hq => ?_
  refine (priced_require _).read fun r hr => ?_
  obtain ⟨hrmax, hrlen⟩ := setKeyAt_length hr
  obtain ⟨hqmax, -, hqlt⟩ := h.pages y q hq
  refine (h.setInternal (hrmax.trans hqmax) ?_).seq fun _ t h => ?_
  · rw [hrlen]
    exact hqlt (Option.some_ne_none y).symm
  · refine wlp_conseq (h.1.setInternal (p := { p with array := p.array.tail }) hmax ?_) fun _ _ h => h.1
    rw [List.length_tail]
    omega

theorem internal_moveLastToFrontOf (h : Spent B none b t) (key : K)
    (hroom : ∀ q, t.1.page y = some (.internal q) → q.array.length + 1 < B) :
    wlp priced (InternalPage.moveLastToFrontOf x y key) (fun _ t' => Spent B none (b + 1) t') t := by
  unfold InternalPage.moveLastToFrontOf
  refine (priced_getInternal y).read fun q hq => ?_
  refine (priced_require _).read fun r hr => ?_
  obtain ⟨hrmax, hrlen⟩ := setKeyAt_length hr
  have hq1 := hroom q hq
  refine (h.setInternal (hrmax.trans (h.pages y q hq).1) (by omega)).seq fun _ t1 h1 => ?_
  refine (priced_getInternal x).read fun p hp => ?_
  obtain ⟨hmax, -, hlt⟩ := h1.1.pages x p hp
  have hlt := hlt (Option.some_ne_none x).symm
  refine (priced_require _).read fun last _ => ?_
  refine (h1.1.copyFirstFrom last fun q' hq' => ?_).seq fun _ t2 h2 => ?_
  · rw [h1.2, Function.update_self] at hq'
    cases hq'
    rw [hrlen]
    exact hq1
  · refine wlp_conseq (h2.setInternal (p := { p with array := p.array.dropLast }) hmax ?_) fun _ _ h => h.1
    rw [List.length_dropLast]
    omega

end Spent

end Moves

/-! ## The tree's functions -/

section Functions
variable {B b : Nat} {t : Priced K V} {node : PageIDType}

namespace Spent

theorem updateRootPageID (h : Spent B none b t) :
    wlp priced (BPlusTree.updateRootPageID : IndexProg K V Unit) (fun _ t' => Spent B none (b + 1) t') t := by
  unfold BPlusTree.updateRootPageID
  refine (h.fetch 0).seq fun _ t h => ?_
  refine priced_getHeader.read fun header _ => ?_
  refine priced_getMember.read fun m _ => ?_
  refine (h.1.setOther fun q hq => ?_).seq fun _ t h => ?_
  · cases hq
  · exact wlp_conseq (h.1.unpin 0 true) fun _ _ h => h.1

theorem setRootPageID (h : Spent B none b t) (root : Option PageIDType) :
    wlp priced (BPlusTree.setRootPageID root : IndexProg K V Unit) (fun _ t' => Spent B none b t') t := by
  unfold BPlusTree.setRootPageID
  refine priced_getMember.read fun m hm => ?_
  exact h.setMember (by rw [hm])

/-- The page it starts at is paid for, and the leaf costs no further one. -/
theorem descend [LinearOrder K] (h : Spent B none b t) (key : K) (leftMost : Bool) (fuel : Nat) (page : PageIDType) :
    wlp priced (BPlusTree.descend key leftMost fuel page) (fun _ t' => Spent B none (b + fuel - 1) t') t := by
  induction fuel generalizing b t page with
  | zero => exact wlp_fail
  | succ fuel ih =>
    unfold BPlusTree.descend
    refine (priced_getNode page).read fun n _ => ?_
    rw [wlp_ite]
    split
    · exact (wlp_pure page).2 (h.mono (by omega))
    · refine (priced_getInternal page).read fun p _ => ?_
      refine (priced_require _).read fun child _ => ?_
      refine (h.unpin n.pageID false).seq fun _ t h => ?_
      refine (h.1.fetch child).seq fun _ t h => ?_
      exact wlp_conseq (ih h.1 child) fun _ _ h => h.mono (by omega)

theorem findLeafPage [LinearOrder K] (h : Spent B none b t) (fuel : Nat) (key : K) (leftMost : Bool) :
    wlp priced (BPlusTree.findLeafPage fuel key leftMost) (fun _ t' => Spent B none (b + fuel) t') t := by
  unfold BPlusTree.findLeafPage
  refine priced_getMember.read fun m _ => ?_
  cases m.rootPageID with
  | none => exact wlp_fail
  | some root =>
    refine (h.fetch root).seq fun _ t h => ?_
    exact wlp_conseq (h.1.descend key leftMost fuel root) fun _ _ h => h.mono (by omega)

theorem getValue [LinearOrder K] (h : Spent B none b t) (fuel : Nat) (key : K) :
    wlp priced (BPlusTree.getValue fuel key) (fun _ t' => Spent B none (b + fuel) t') t := by
  unfold BPlusTree.getValue
  refine priced_getMember.read fun m _ => ?_
  rw [wlp_ite]
  split
  · exact (wlp_pure none).2 (h.mono (by omega))
  · refine (h.findLeafPage fuel key false).seq fun leaf t h => ?_
    refine (priced_getLeaf leaf).read fun p _ => ?_
    refine (h.unpin p.pageID false).seq fun _ t h => ?_
    exact (wlp_pure _).2 h.1

theorem startNewTree [LinearOrder K] (h : Spent B none b t) (key : K) (value : V) :
    wlp priced (BPlusTree.startNewTree key value) (fun _ t' => Spent B none (b + 3) t') t := by
  unfold BPlusTree.startNewTree
  refine h.newIndexPage.seq fun x t h => ?_
  refine priced_getMember.read fun m _ => ?_
  refine (h.setLeaf x _).seq fun _ t h => ?_
  refine (h.unpin x true).seq fun _ t h => ?_
  refine (h.1.setRootPageID (some x)).seq fun _ t h => ?_
  exact h.updateRootPageID

theorem split_leaf (h : Spent B none b t) :
    wlp priced (BPlusTree.split .LeafPage node) (fun _ t' => Spent B none (b + 2) t') t := by
  unfold BPlusTree.split
  refine (priced_getNode node).read fun n _ => ?_
  rw [wlp_ite]
  split
  · exact wlp_fail
  refine h.newIndexPage.seq fun x t h => ?_
  refine priced_getMember.read fun m _ => ?_
  refine (h.setLeaf x _).seq fun _ t h => ?_
  refine (h.leaf_moveHalfTo node x).seq fun _ t h => ?_
  exact (wlp_pure x).2 h

/-- The full page is split in two that have room. -/
theorem split_internal (h : Spent B (some node) b t) :
    wlp priced (BPlusTree.split .InternalPage node) (fun _ t' => Spent B none (b + (B + 2)) t') t := by
  unfold BPlusTree.split
  refine (priced_getNode node).read fun n _ => ?_
  rw [wlp_ite]
  split
  · exact wlp_fail
  refine h.newIndexPage.seq fun x t h => ?_
  refine priced_getMember.read fun m hm => ?_
  have h4 := h.four_le
  refine (h.setInternal (p := InternalPage.init x n.parentPageID m.internalMaxSize) ?_ ?_).seq fun _ t h => ?_
  · rw [hm]
    exact h.capacity
  · exact lt_of_lt_of_le (by decide : 0 < 4) h4
  refine (h.1.internal_moveHalfTo ⟨_, by rw [h.2, Function.update_self], rfl⟩).seq fun _ t h => ?_
  exact (wlp_pure x).2 (h.mono (by omega))

theorem populateNewRoot_length [Inhabited K] {p q : InternalPage K} {x y : PageIDType} {key : K}
    (h : p.populateNewRoot x key y = some q) : q.maxSize = p.maxSize ∧ q.array.length = 2 := by
  unfold InternalPage.populateNewRoot at h
  split at h
  · obtain rfl := Option.some.inj h
    exact ⟨rfl, rfl⟩
  · cases h

theorem insertNodeAfter_length {p q : InternalPage K} {x y : PageIDType} {key : K}
    (h : p.insertNodeAfter x key y = some q) : q.maxSize = p.maxSize ∧ q.array.length = p.array.length + 1 := by
  have hlen := congrArg List.length
    (List.rdropWhile_append_rtakeWhile (p := fun e : K × PageIDType => e.2 ≠ x) (l := p.array))
  rw [List.length_append] at hlen
  unfold InternalPage.insertNodeAfter at h
  split at h
  · cases h
  · obtain rfl := Option.some.inj h
    refine ⟨rfl, ?_⟩
    rw [List.length_append, List.length_cons]
    omega

theorem remove_length {p q : InternalPage K} {i : Nat} (h : p.remove i = some q) :
    q.maxSize = p.maxSize ∧ q.array.length ≤ p.array.length := by
  unfold InternalPage.remove at h
  split at h
  · obtain rfl := Option.some.inj h
    exact ⟨rfl, List.length_eraseIdx_le _ _⟩
  · cases h

/-- A level costs the parent, and the split of the parent if it gets full. -/
theorem insertIntoParent [Inhabited K] (h : Spent B none b t) (fuel : Nat) (old : PageIDType) (key : K)
    (new : PageIDType) :
    wlp priced (BPlusTree.insertIntoParent fuel old key new) (fun _ t' => Spent B none (b + fuel * (B + 3)) t') t := by
  induction fuel generalizing b t old key new with
  | zero => exact wlp_fail
  | succ fuel ih =>
    rw [Nat.succ_mul]
    unfold BPlusTree.insertIntoParent
    refine (priced_getNode old).read fun n _ => ?_
    refine (priced_getNode new).read fun m _ => ?_
    cases n.parentPageID with
    -- a new root, once
    | none =>
      refine h.newIndexPage.seq fun x t h => ?_
      refine priced_getMember.read fun mem hm => ?_
      refine (priced_require _).read fun root hroot => ?_
      obtain ⟨hmax, hlen⟩ := populateNewRoot_length hroot
      have h4 := h.four_le
      have hmax : root.maxSize = B := by
        rw [hmax, hm]
        exact h.capacity
      refine (h.setInternal hmax (by omega)).seq fun _ t h => ?_
      refine (h.1.setParentPageID old _).seq fun _ t h => ?_
      refine (h.1.setParentPageID new _).seq fun _ t h => ?_
      refine (h.1.setRootPageID _).seq fun _ t h => ?_
      refine h.updateRootPageID.seq fun _ t h => ?_
      exact wlp_conseq (h.unpin x true) fun _ _ h => h.1.mono (by omega)
    | some parent =>
      refine (h.fetch parent).seq fun _ t h => ?_
      refine (priced_getInternal parent).read fun p hp => ?_
      refine (priced_require _).read fun q hq => ?_
      obtain ⟨hqmax, hqlen⟩ := insertNodeAfter_length hq
      obtain ⟨hmax, -, hlt⟩ := h.1.pages parent p hp
      have hlt := hlt (Option.some_ne_none parent).symm
      have hend : ∀ t : Priced K V, Spent B none (b + (fuel * (B + 3) + (B + 3))) t →
          wlp priced (do unpinPage (← getInternal parent).pageID true)
            (fun _ t' => Spent B none (b + (fuel * (B + 3) + (B + 3))) t') t := by
        intro t h
        refine (priced_getInternal parent).read fun p _ => ?_
        exact wlp_conseq (h.unpin p.pageID true) fun _ _ h => h.1
      -- a split costs the new page and its half of the children
      by_cases hfull : q.maxSize ≤ q.getSize
      · refine (h.1.fill (hqmax.trans hmax) (by omega)).seq fun _ t h => ?_
        rw [wlp_ite, if_pos hfull]
        refine h.split_internal.seq fun newInternal t h => ?_
        refine (priced_getInternal newInternal).read fun r _ => ?_
        refine (priced_require _).read fun k _ => ?_
        refine (ih h parent k newInternal).seq fun _ t h => ?_
        refine (priced_getInternal newInternal).read fun r _ => ?_
        refine (h.unpin r.pageID true).seq fun _ t h => ?_
        exact hend t (h.1.mono (by omega))
      · have hroom : q.array.length < B := by
          rw [← hmax, ← hqmax]
          exact not_le.1 hfull
        refine (h.1.setInternal (hqmax.trans hmax) hroom).seq fun _ t h => ?_
        rw [wlp_ite, if_neg hfull]
        exact hend t (h.1.mono (by omega))

theorem insertIntoLeaf [LinearOrder K] [Inhabited K] (h : Spent B none b t) (fuel : Nat) (key : K) (value : V) :
    wlp priced (BPlusTree.insertIntoLeaf fuel key value)
    (fun _ t' => Spent B none (b + (fuel * (B + 4) + 2)) t') t := by
  unfold BPlusTree.insertIntoLeaf
  have hsum : fuel * (B + 4) = fuel * (B + 3) + fuel := Nat.mul_succ fuel (B + 3)
  refine (h.findLeafPage fuel key false).seq fun leaf t h => ?_
  refine (priced_getLeaf leaf).read fun p _ => ?_
  rw [wlp_ite]
  split
  · exact (wlp_pure false).2 (h.mono (by omega))
  refine (h.setLeaf leaf _).seq fun _ t h => ?_
  have hend : ∀ t : Priced K V, Spent B none (b + (fuel * (B + 4) + 2)) t →
      wlp priced (do unpinPage (← getLeaf leaf).pageID true; pure true)
        (fun _ t' => Spent B none (b + (fuel * (B + 4) + 2)) t') t := by
    intro t h
    refine (priced_getLeaf leaf).read fun p _ => ?_
    refine (h.unpin p.pageID true).seq fun _ t h => ?_
    exact (wlp_pure true).2 h.1
  rw [wlp_ite]
  split
  · refine h.split_leaf.seq fun newLeaf t h => ?_
    refine (priced_getLeaf leaf).read fun p _ => ?_
    refine (priced_getLeaf newLeaf).read fun q _ => ?_
    refine (h.setLeaf newLeaf _).seq fun _ t h => ?_
    refine (h.setLeaf leaf _).seq fun _ t h => ?_
    refine (priced_require _).read fun k _ => ?_
    refine (h.insertIntoParent fuel leaf k newLeaf).seq fun _ t h => ?_
    refine (priced_getLeaf newLeaf).read fun q _ => ?_
    refine (h.unpin q.pageID true).seq fun _ t h => ?_
    exact hend t (h.1.mono (by omega))
  · exact hend t (h.mono (by omega))

theorem removeAndReturnOnlyChild (h : Spent B none b t) (node : PageIDType) :
    wlp priced (InternalPage.removeAndReturnOnlyChild node) (fun _ t' => Spent B none b t') t := by
  unfold InternalPage.removeAndReturnOnlyChild
  refine (priced_getInternal node).read fun p hp => ?_
  refine (priced_require _).read fun x _ => ?_
  obtain ⟨hmax, -, hlt⟩ := h.pages node p hp
  have hlt := hlt (Option.some_ne_none node).symm
  refine (h.setInternal (p := p.setSize (p.getSize - 1)) hmax ?_).seq fun _ t h => ?_
  · exact lt_of_le_of_lt (List.length_take_le' _ _) hlt
  · exact (wlp_pure x).2 h.1

theorem adjustRoot (h : Spent B none b t) (node : PageIDType) :
    wlp priced (BPlusTree.adjustRoot node) (fun _ t' => Spent B none (b + 2) t') t := by
  unfold BPlusTree.adjustRoot
  refine (priced_getNode node).read fun n _ => ?_
  rw [wlp_ite]
  split
  · exact wlp_fail
  rw [wlp_ite]
  split
  · refine (h.setRootPageID _).seq fun _ t h => ?_
    refine h.updateRootPageID.seq fun _ t h => ?_
    exact (wlp_pure true).2 (h.mono (by omega))
  rw [wlp_ite]
  split
  · refine (h.removeAndReturnOnlyChild node).seq fun x t h => ?_
    refine (h.setRootPageID _).seq fun _ t h => ?_
    refine h.updateRootPageID.seq fun _ t h => ?_
    refine (h.fetch x).seq fun _ t h => ?_
    refine (h.1.setParentPageID x _).seq fun _ t h => ?_
    refine (priced_getNode x).read fun r _ => ?_
    refine (h.1.unpin r.pageID true).seq fun _ t h => ?_
    exact (wlp_pure true).2 h.1
  · exact (wlp_pure false).2 (h.mono (by omega))

/-- The node is an internal page that has less than half its capacity, or no internal page. -/
def Lacks (B : Nat) (t : Priced K V) (x : PageIDType) : Prop :=
  ∀ p, t.1.page x = some (.internal p) → p.array.length < B / 2

theorem coalesce {N : NodeType} {sibling parent : PageIDType} {index cost : Nat}
    {rec : PageIDType → IndexProg K V Bool} (h : Spent B none b t) (hroom : ∀ p q, t.1.page node = some (.internal p) →
      t.1.page sibling = some (.internal q) → p.array.length + q.array.length < B)
    (hrec : ∀ {b : Nat} {t : Priced K V}, Spent B none b t → Lacks B t parent →
      wlp priced (rec parent) (fun _ t' => Spent B none (b + cost) t') t) :
    wlp priced (BPlusTree.coalesce rec N sibling node parent index)
    (fun _ t' => Spent B none (b + (B + cost)) t') t := by
  unfold BPlusTree.coalesce
  refine (priced_getInternal parent).read fun p _ => ?_
  refine (priced_require _).read fun x _ => ?_
  refine (priced_getNode sibling).read fun n _ => ?_
  -- after the swap `right` is the page that gives its entries away
  obtain ⟨left, right, hpair, hsides⟩ : ∃ left right,
      (if x = n.pageID then (node, sibling) else (sibling, node)) = (left, right) ∧
      (left = node ∧ right = sibling ∨ left = sibling ∧ right = node) := by
    by_cases hx : x = n.pageID
    · exact ⟨node, sibling, if_pos hx, .inl ⟨rfl, rfl⟩⟩
    · exact ⟨sibling, node, if_neg hx, .inr ⟨rfl, rfl⟩⟩
  have hend : ∀ t : Priced K V, Spent B none (b + B) t →
      wlp priced (do
        let p ← require ((← getInternal parent).remove index)
        MisakiDB.setInternal parent p
        if p.getSize < p.getMinSize then
          pure (left, right, ← rec parent)
        else
          pure (left, right, false)) (fun _ t' => Spent B none (b + (B + cost)) t') t := by
    intro t h
    refine (priced_getInternal parent).read fun p hp => ?_
    refine (priced_require _).read fun q hq => ?_
    obtain ⟨hqmax, hqlen⟩ := remove_length hq
    obtain ⟨hmax, -, hlt⟩ := h.pages parent p hp
    have hlt := hlt (Option.some_ne_none parent).symm
    refine (h.setInternal (hqmax.trans hmax) (by omega)).seq fun _ t h => ?_
    rw [wlp_ite]
    split
    · rename_i hshort
      refine (hrec h.1 fun r hr => ?_).seq fun needDelete t h => ?_
      · rw [h.2, Function.update_self] at hr
        cases hr
        rw [← hmax, ← hqmax]
        exact hshort
      · exact (wlp_pure _).2 (h.mono (by omega))
    · exact (wlp_pure _).2 (h.1.mono (by omega))
  simp only [hpair]
  cases N with
  | LeafPage =>
    refine (h.leaf_moveAllTo right left).seq fun _ t h => ?_
    exact hend t (h.mono (by omega))
  | InternalPage =>
    refine (priced_require _).read fun k _ => ?_
    refine (h.internal_moveAllTo k fun p q hp hq => ?_).seq fun _ t h => hend t h
    rcases hsides with ⟨rfl, rfl⟩ | ⟨rfl, rfl⟩
    · rw [Nat.add_comm]
      exact hroom q p hq hp
    · exact hroom p q hp hq

theorem redistribute {N : NodeType} {sibling : PageIDType} {index : Nat} (h : Spent B none b t)
    (hlacks : Lacks B t node) :
    wlp priced (BPlusTree.redistribute N sibling node index) (fun _ t' => Spent B none (b + 2) t') t := by
  unfold BPlusTree.redistribute
  have h4 := h.four_le
  refine (priced_getNode node).read fun n _ => ?_
  refine (priced_require _).read fun parent _ => ?_
  refine (h.fetch parent).seq fun _ t1 h1 => ?_
  have hroom : ∀ q, t1.1.page node = some (.internal q) → q.array.length + 1 < B := by
    intro q hq
    rw [h1.2] at hq
    have := hlacks q hq
    omega
  obtain ⟨h1, -⟩ := h1
  refine (priced_getInternal parent).read fun p hp => ?_
  obtain ⟨hmax, -, hlt⟩ := h1.pages parent p hp
  have hlt := hlt (Option.some_ne_none parent).symm
  have hsetKey : ∀ (k : K) (t : Priced K V), Spent B none (b + 2) t →
      wlp priced (do MisakiDB.setInternal parent (← require (p.setKeyAt index k))) (fun _ t' => Spent B none (b + 2) t') t := by
    intro k t h
    refine (priced_require _).read fun q hq => ?_
    obtain ⟨hqmax, hqlen⟩ := setKeyAt_length hq
    exact wlp_conseq (h.setInternal (hqmax.trans hmax) (by omega)) fun _ _ h => h.1
  refine (priced_require _).read fun y _ => ?_
  rw [wlp_ite]
  split
  · cases N with
    | LeafPage =>
      refine (h1.leaf_moveLastToFrontOf sibling node).seq fun _ t h => ?_
      refine (priced_getLeaf node).read fun l _ => ?_
      refine (priced_require _).read fun k _ => ?_
      exact hsetKey k t (h.mono (by omega))
    | InternalPage =>
      refine (priced_getInternal sibling).read fun q _ => ?_
      refine (priced_require _).read fun lastKey _ => ?_
      refine (priced_require _).read fun k _ => ?_
      refine (h1.internal_moveLastToFrontOf k hroom).seq fun _ t h => ?_
      exact hsetKey lastKey t h
  · cases N with
    | LeafPage =>
      refine (h1.leaf_moveFirstToEndOf sibling node).seq fun _ t h => ?_
      refine (priced_getLeaf sibling).read fun l _ => ?_
      refine (priced_require _).read fun k _ => ?_
      exact hsetKey k t (h.mono (by omega))
    | InternalPage =>
      refine (priced_getInternal sibling).read fun q _ => ?_
      refine (priced_require _).read fun firstKey _ => ?_
      refine (priced_require _).read fun k _ => ?_
      refine (h1.internal_moveFirstToEndOf k hroom).seq fun _ t h => ?_
      exact hsetKey firstKey t h

/-- A level costs the parent, the sibling, the children of one page, and two pages given back. -/
theorem coalesceOrRedistribute (h : Spent B none b t) (hlacks : Lacks B t node) (fuel : Nat) (N : NodeType) :
    wlp priced (BPlusTree.coalesceOrRedistribute fuel N node) (fun _ t' => Spent B none (b + fuel * (B + 6)) t') t := by
  induction fuel generalizing b t N node with
  | zero => exact wlp_fail
  | succ fuel ih =>
    rw [Nat.succ_mul]
    unfold BPlusTree.coalesceOrRedistribute
    refine (priced_getNode node).read fun n hn => ?_
    cases n.parentPageID with
    -- the walk ends at the root, which has no sibling
    | none =>
      have hroot : wlp priced (do let _ ← BPlusTree.adjustRoot node; pure true)
          (fun _ t' => Spent B none (b + (fuel * (B + 6) + (B + 6))) t') t := by
        refine (h.adjustRoot node).seq fun _ t h => ?_
        exact (wlp_pure true).2 (h.mono (by omega))
      simp only
      rw [wlp_ite]
      split
      · exact hroot
      rw [wlp_ite]
      split
      · exact hroot
      · exact (wlp_pure false).2 (h.mono (by omega))
    | some parent =>
      refine (h.fetch parent).seq fun _ t1 h1 => ?_
      refine (priced_getInternal parent).read fun p _ => ?_
      refine (priced_require _).read fun thisIndex _ => ?_
      refine (priced_require _).read fun indices _ => ?_
      obtain ⟨siblingIndex, middleIndex⟩ := indices
      refine (priced_require _).read fun sibling _ => ?_
      refine (h1.1.fetch sibling).seq fun _ t2 h2 => ?_
      have hpage : t2.1.page = t.1.page := h2.2.trans h1.2
      have h2 := h2.1
      refine (priced_getNode sibling).read fun m hm => ?_
      rw [hpage] at hm
      rw [wlp_ite]
      split
      · rename_i hfits
        refine (h2.coalesce (fun p q hp hq => ?_) fun h hlacks => ih h hlacks .InternalPage).seq
          fun r t h => ?_
        · rw [hpage] at hp hq
          rw [hp] at hn
          rw [hq] at hm
          cases hn
          cases hm
          have hmax := (h2.pages node p (by rw [hpage, hp])).1
          have hfits : q.array.length + p.array.length < p.maxSize := hfits
          omega
        obtain ⟨neighborNode, dead, needDelete⟩ := r
        refine (priced_getInternal parent).read fun q _ => ?_
        refine (h.unpin q.pageID true).seq fun _ t h => ?_
        -- the page that died is freed here, or the pin of the other given up
        have hend : ∀ t : Priced K V, Spent B none (b + (fuel * (B + 6) + B + 4)) t → wlp priced (do
            if neighborNode ≠ sibling then
              let nodeID := (← getNode dead).pageID
              unpinPage nodeID true
              let _ ← MisakiDB.deleteIndexPage nodeID
              pure false
            else
              unpinPage (← getNode neighborNode).pageID true
              pure true) (fun _ t' => Spent B none (b + (fuel * (B + 6) + (B + 6))) t') t := by
          intro t h
          rw [wlp_ite]
          split
          · refine (priced_getNode dead).read fun m _ => ?_
            refine (h.unpin m.pageID true).seq fun _ t h => ?_
            refine (h.1.deleteIndexPage m.pageID).seq fun _ t h => ?_
            exact (wlp_pure false).2 (h.mono (by omega))
          · refine (priced_getNode neighborNode).read fun m _ => ?_
            refine (h.unpin m.pageID true).seq fun _ t h => ?_
            exact (wlp_pure true).2 (h.1.mono (by omega))
        rw [wlp_ite]
        split
        · refine (h.1.deleteIndexPage q.pageID).seq fun _ t h => ?_
          exact hend t (h.mono (by omega))
        · exact hend t (h.1.mono (by omega))
      -- a borrowing ends the walk
      · refine (h2.redistribute fun p hp => hlacks p (by rw [← hpage, hp])).seq fun _ t h => ?_
        refine (priced_getNode sibling).read fun m _ => ?_
        refine (h.unpin m.pageID true).seq fun _ t h => ?_
        refine (priced_getInternal parent).read fun q _ => ?_
        refine (h.1.unpin q.pageID true).seq fun _ t h => ?_
        exact (wlp_pure false).2 (h.1.mono (by omega))

variable [LinearOrder K]

theorem insert [Inhabited K] (h : Spent B none b t) (fuel : Nat) (key : K) (value : V) :
    wlp priced (BPlusTree.insert fuel key value) (fun _ t' => Spent B none (b + (fuel * (B + 4) + 3)) t') t := by
  unfold BPlusTree.insert
  refine priced_getMember.read fun m _ => ?_
  rw [wlp_ite]
  split
  · refine (h.startNewTree key value).seq fun _ t h => ?_
    exact (wlp_pure true).2 (h.mono (by omega))
  · exact wlp_conseq (h.insertIntoLeaf fuel key value) fun _ _ h => h.mono (by omega)

theorem remove (h : Spent B none b t) (fuel : Nat) (key : K) :
    wlp priced (BPlusTree.remove fuel key) (fun _ t' => Spent B none (b + (fuel * (B + 7) + 2)) t') t := by
  unfold BPlusTree.remove
  have hsum : fuel * (B + 7) = fuel * (B + 6) + fuel := Nat.mul_succ fuel (B + 6)
  refine priced_getMember.read fun m _ => ?_
  rw [wlp_ite]
  split
  · exact (wlp_pure none).2 (h.mono (by omega))
  refine (h.findLeafPage fuel key false).seq fun leaf t h => ?_
  refine (priced_getLeaf leaf).read fun p _ => ?_
  generalize p.removeAndDeleteRecord key = r
  obtain ⟨removed, q⟩ := r
  cases removed with
  | none =>
    refine (h.unpin q.pageID false).seq fun _ t h => ?_
    exact (wlp_pure none).2 (h.1.mono (by omega))
  | some removedValue =>
    refine wlp.seq (h.setOther (k := leaf) (p := .leaf q) fun r hr => ?_) fun _ t h => ?_
    · cases hr
    have hend : ∀ (needDelete : Bool) (t : Priced K V), Spent B none (b + fuel * (B + 7)) t → wlp priced (do
        let leafID := (← getLeaf leaf).pageID
        unpinPage leafID true
        if needDelete then
          let _ ← MisakiDB.deleteIndexPage leafID
        pure (some removedValue)) (fun _ t' => Spent B none (b + (fuel * (B + 7) + 2)) t') t := by
      intro needDelete t h
      refine (priced_getLeaf leaf).read fun q _ => ?_
      refine (h.unpin q.pageID true).seq fun _ t h => ?_
      rw [wlp_ite]
      split
      · refine (h.1.deleteIndexPage q.pageID).seq fun _ t h => ?_
        exact (wlp_pure _).2 (h.mono (by omega))
      · exact (wlp_pure _).2 (h.1.mono (by omega))
    rw [wlp_ite]
    split
    · have hlacks : Lacks B t leaf := by
        intro p hp
        rw [h.2, Function.update_self] at hp
        cases hp
      refine (h.1.coalesceOrRedistribute hlacks fuel .LeafPage).seq fun needDelete t h => ?_
      exact hend needDelete t (h.mono (by omega))
    · exact hend false t (h.1.mono (by omega))

end Spent

end Functions

/-! ## A call, in the entries of the tree -/

section Calls
variable [LinearOrder K] [Inhabited K]

/-- The pages a call asks for on a tree with `d` internal levels, of internal pages of
capacity `B`. -/
def Call.price (B d : Nat) : Call K V → Nat
  | .insert _ _ => (d + 1) * (B + 4) + 3
  | .remove _ => (d + 1) * (B + 7) + 2
  | .getValue _ => d + 1

omit [LinearOrder K] [Inhabited K] in
theorem Call.price_mono (c : Call K V) (B : Nat) : Monotone (c.price B) := by
  intro d d' hd
  have hle : d + 1 ≤ d' + 1 := Nat.succ_le_succ hd
  cases c with
  | insert key value => exact Nat.add_le_add_right (Nat.mul_le_mul_right _ hle) 3
  | remove key => exact Nat.add_le_add_right (Nat.mul_le_mul_right _ hle) 2
  | getValue key => exact hle

theorem Spent.call {B : Nat} {s : IndexStore K V} (h : Spent B none 0 (s, 0)) (d : Nat) (c : Call K V) :
    wlp priced (c.prog (d + 1)) (fun _ t' => Spent B none (c.price B d) t') (s, 0) := by
  cases c with
  | insert key value =>
    refine (h.insert (d + 1) key value).seq fun _ t h => ?_
    exact (wlp_pure _).2 (by simpa [Call.price] using h)
  | remove key =>
    refine (h.remove (d + 1) key).seq fun _ t h => ?_
    exact (wlp_pure _).2 (by simpa [Call.price] using h)
  | getValue key =>
    refine (h.getValue (d + 1) key).seq fun _ t h => ?_
    exact (wlp_pure _).2 (by simpa [Call.price] using h)

variable {leafMax internalMax : Nat} {s s' : IndexStore K V} {m : K → Option V} {orphans : List Nat}

/-- Between calls no internal page is full. -/
theorem Spent.step {B : Nat} (h : Spent B none 0 (s, 0)) {c : Call K V} {a : Answer V}
    (hc : MisakiDB.call c s = some (a, s')) :
    Spent B none 0 (s', 0) := by
  obtain ⟨n, hn⟩ := run_counted (c := asks) (n := 0) hc
  obtain ⟨f, hf⟩ : ∃ f, bound s ≤ f + 1 := ⟨bound s, Nat.le_succ _⟩
  have h' := h.call f c _ _ (c.approx hf _ _ _ _ hn)
  exact ⟨h'.capacity, h'.pages, le_rfl⟩

omit [LinearOrder K] [Inhabited K] in
theorem Spent.create (leafMax internalMax : Nat) :
    Spent (max internalMax 4) none 0 ((BPlusTree.create leafMax internalMax : IndexStore K V), 0) := by
  refine ⟨rfl, fun x p hp => ?_, le_rfl⟩
  simp only [BPlusTree.create] at hp
  split at hp <;> cases hp

theorem Spent.calls {B : Nat} (h : Spent B none 0 (s, 0)) {cs : List (Call K V)} {answers : List (Answer V)}
    (hrun : MisakiDB.calls cs s = some (answers, s')) : Spent B none 0 (s', 0) := by
  induction cs generalizing s answers with
  | nil =>
    cases hrun
    exact h
  | cons c cs ih =>
    obtain ⟨⟨a, s1⟩, hc, hrun⟩ := Option.bind_eq_some_iff.1 hrun
    obtain ⟨⟨as, s2⟩, hcs, hrun⟩ := Option.bind_eq_some_iff.1 hrun
    cases hrun
    exact ih (h.step hc) hcs

/-- A call on a tree ends with no more fuel than the tree has levels. -/
theorem Tree.ends {L : Level K} {Ls : List (Level K)} {used free : List Nat} {h : IndexFileHeader} (ht : Tree s L Ls)
    (ha : Alloc s used free h) (hperm : used.Perm (ids L ++ allIds Ls ++ orphans)) (h2 : 2 ≤ s.member.leafMaxSize)
    (c : Call K V) : ∃ r, run exec (c.prog (Ls.length + 1)) s = some r := by
  have hfuel : Ls.length < Ls.length + 1 := Nat.lt_succ_self _
  cases c with
  | insert key value =>
    obtain ⟨b, s', hrun, -⟩ := insertIntoLeaf_spec key value ht ha hperm h2 hfuel
    refine ⟨(_, s'), run_then (p := BPlusTree.insert _ key value) (a := b) _ ?_⟩
    obtain ⟨r, hr, -⟩ := ht.root
    rw [BPlusTree.insert, run_bind]
    simpa [getMember, perform, run, exec, hr] using hrun
  | remove key =>
    obtain ⟨v, s', hrun, -⟩ := remove_tree key ht ha hperm h2 hfuel
    exact ⟨_, run_then _ hrun⟩
  | getValue key =>
    obtain ⟨v, s', hrun, -⟩ := getValue_tree key ht hfuel
    exact ⟨_, run_then _ hrun⟩

/-- Without a tree there is nothing to walk. -/
theorem Call.prog_empty (c : Call K V) (hr : s.member.rootPageID = none) (fuel fuel' : Nat) :
    run exec (c.prog fuel) s = run exec (c.prog fuel') s := by
  have hget : ∀ (α : Type) (f : BPlusTree → IndexProg K V α),
      run exec (getMember >>= f) s = run exec (f s.member) s := fun _ _ => rfl
  cases c with
  | insert key value => simp only [Call.prog, BPlusTree.insert, Prog.bind_assoc, hget, hr, if_true]
  | remove key => simp only [Call.prog, BPlusTree.remove, Prog.bind_assoc, hget, hr, if_true]
  | getValue key => simp only [Call.prog, BPlusTree.getValue, Prog.bind_assoc, hget, hr, if_true]

theorem TreeInv.price (hi : TreeInv leafMax internalMax s m orphans) (h2 : 2 ≤ leafMax)
    (hs : Spent (max internalMax 4) none 0 (s, 0)) (c : Call K V) {keys : Finset K}
    (hkeys : ∀ k, m k ≠ none → k ∈ keys) :
    ∃ d, (d = 0 ∨ fewest leafMax internalMax d ≤ keys.card) ∧ wp priced (c.prog (bound s)) (fun a t =>
      MisakiDB.call c s = some (a, t.1) ∧ t.2 ≤ c.price (max internalMax 4) d) (s, 0) := by
  obtain ⟨s', hcall, -⟩ := hi.call h2 c
  obtain ⟨rfl, rfl, pages, es, used, free, h, ha, hh, hperm, rfl⟩ := hi
  -- a run with the fuel of `d` levels is the call, and has the price of `d` levels
  have hprice : ∀ d, d < bound s → (∃ r, run exec (c.prog (d + 1)) s = some r) →
    wp priced (c.prog (bound s)) (fun a t =>
      MisakiDB.call c s = some (a, t.1) ∧ t.2 ≤ c.price (max s.member.internalMaxSize 4) d) (s, 0) := by
    intro d hd hr
    obtain ⟨r, hr⟩ := hr
    have happrox := c.approx (Nat.succ_le_of_lt hd)
    apply happrox.cost (Q := fun a s' => MisakiDB.call c s = some (a, s')) ⟨r.1, r.2, hr, happrox _ _ _ _ hr⟩
    exact wlp_conseq (hs.call d c) fun _ _ h => h.cost
  rcases hh with ⟨hr, rfl, rfl⟩ | ⟨L, Ls, ht, rfl, rfl⟩
  · refine ⟨0, .inl rfl, hprice 0 ?_ ⟨_, (c.prog_empty hr _ _).trans hcall⟩⟩
    rw [ha.bound_eq]
    exact ha.next_pos
  · refine ⟨Ls.length, .inr (le_trans ht.fewest_le (ht.length_le_card hkeys)), hprice _ ?_ (ht.ends ha hperm h2 c)⟩
    rw [ha.bound_eq]
    exact ht.depth ha hperm

/-- A call asks for the pages of so many levels as a tree with these keys can have, each
at a fixed price. -/
theorem pages_per_call {answers : List (Answer V)} {cs : List (Call K V)} (h2 : 2 ≤ leafMax)
    (hrun : MisakiDB.calls cs (BPlusTree.create leafMax internalMax) = some (answers, s)) (c : Call K V)
    (keys : Finset K) (hkeys : ∀ k, (mapCalls cs fun _ => none).2 k ≠ none → k ∈ keys) :
    ∃ d, (d = 0 ∨ fewest leafMax internalMax d ≤ keys.card) ∧ wp priced (c.prog (bound s)) (fun a t =>
      MisakiDB.call c s = some (a, t.1) ∧ t.2 ≤ c.price (max internalMax 4) d) (s, 0) := by
  obtain ⟨orphans, hi⟩ := TreeInv.reached h2 hrun
  exact hi.price h2 ((Spent.create leafMax internalMax).calls hrun) c hkeys

theorem pages_per_call_three : ∃ answers s d, MisakiDB.calls [.insert 1 10, .insert 2 20, .insert 3 30]
    (BPlusTree.create 2 4 : IndexStore Nat Nat) = some (answers, s) ∧ (d = 0 ∨ fewest 2 4 d ≤ 3) ∧
    wp priced (Call.prog (bound s) (.remove 2 : Call Nat Nat)) (fun a t => MisakiDB.call (.remove 2) s = some (a, t.1) ∧
      t.2 ≤ Call.price 4 d (.remove 2 : Call Nat Nat)) (s, 0) := by
  obtain ⟨s, hs⟩ := calls_eq_map (le_refl 2) 4 [.insert 1 10, .insert 2 20, .insert 3 30]
  obtain ⟨d, hd⟩ := pages_per_call (le_refl 2) hs (.remove 2) {1, 2, 3} fun k hk => by
    simp only [mapCalls, Call.onMap, Function.update] at hk
    simp only [Finset.mem_insert, Finset.mem_singleton]
    by_contra hne
    simp_all
  exact ⟨_, s, d, hs, hd⟩

/-- In plain numbers: the price of `log₂ n` levels. -/
theorem pages_per_call_log {answers : List (Answer V)} {cs : List (Call K V)} (h2 : 2 ≤ leafMax)
    (hrun : MisakiDB.calls cs (BPlusTree.create leafMax internalMax) = some (answers, s)) (c : Call K V)
    (keys : Finset K) (hkeys : ∀ k, (mapCalls cs fun _ => none).2 k ≠ none → k ∈ keys) :
    wp priced (c.prog (bound s)) (fun a t =>
      MisakiDB.call c s = some (a, t.1) ∧ t.2 ≤ c.price (max internalMax 4) (Nat.log 2 keys.card)) (s, 0) := by
  obtain ⟨orphans, hi⟩ := TreeInv.reached h2 hrun
  obtain ⟨d, hd, hp⟩ := hi.price h2 ((Spent.create leafMax internalMax).calls hrun) c hkeys
  have hlog : d ≤ Nat.log 2 keys.card := by
    rcases hd with rfl | hd
    · exact Nat.zero_le _
    · exact Nat.le_log_of_pow_le (by decide) (le_trans (two_pow_le_fewest h2 internalMax d) hd)
  exact wp_conseq hp fun a t ht => ⟨ht.1, le_trans ht.2 (c.price_mono _ hlog)⟩

end Calls
end
end MisakiDB
