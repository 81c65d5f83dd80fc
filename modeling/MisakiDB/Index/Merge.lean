import MisakiDB.Index.Climb
/-!
# The walk up after a removal

`coalesceOrRedistribute` is called for a page that lacks an entry. By induction
on the levels above it, it leaves a tree with the same entries whose pages are of
allowed sizes again: `Shrunk` says which pages it discards, that those nobody
has pinned are free afterwards, and which page keeps a pin.
-/

namespace MisakiDB

open Prog PageStore Blocks

variable {K V : Type}

/-! ## What a call leaves -/

/-- What a row and the levels above it amount to once a call is over. -/
def Result [LinearOrder K] [Inhabited K] (N : NodeType) (s : IndexStore K V) (es : List (K × V)) (M : Level K)
    (pages : List Nat) : Prop :=
  match N with
  | .LeafPage => Holds s pages es
  | .InternalPage => ∃ Us, Above s M Us ∧ pages = allIds Us

/-- Every page has an allowed size, but `x` one entry less. -/
def Lacking (N : NodeType) (s : IndexStore K V) (Ls : List (Level K)) (x y size : Nat) : Prop :=
  Fits N s (Ls = []) (if y = x then size + 1 else size)

/-- A pin more on the page that was borrowed through. -/
def pinned (s : IndexStore K V) (borrowed : Option Nat) : Nat → Nat :=
  match borrowed with
  | none => s.pins
  | some a => Function.update s.pins a (s.pins a + 1)

theorem pinned_eq {s : IndexStore K V} {o : Option Nat} {z : Nat} (hz : ∀ a ∈ o, z ≠ a) : pinned s o z = s.pins z := by
  cases o with
  | none => rfl
  | some a => exact Function.update_of_ne (hz a rfl) ..

/-- After the call for the page `x` of the row `L`, which returned `b`; `c` is what
`climb` foretold. The caller has to give back `x` itself. -/
structure Shrunk [LinearOrder K] [Inhabited K] (N : NodeType) (s s' : IndexStore K V) (used : List Nat) (L : Level K)
    (Ls : List (Level K))
    (es : List (K × V)) (M : Level K) (x : Nat) (b : Bool) (c : List Nat × Option Nat) : Prop where
  discards : ∃ D, x ∉ D ∧ c.1.Perm ((if b then [x] else []) ++ D) ∧ ∃ used' free' h', Alloc s' used' free' h' ∧
    used.Perm (D.filter (s.pins · = 0) ++ used')
  pins : s'.pins = pinned s c.2
  borrowed : ∀ a ∈ c.2, a ∈ allIds Ls
  changes : Changes s s' (kidIds N M) (0 :: (ids L ++ allIds Ls))
  kind : IsKind N s' x
  result : ∃ pages, Result N s' es M pages ∧ (pages ++ c.1).Perm (ids L ++ allIds Ls)

section Result
variable {N : NodeType} {s s' : IndexStore K V} {es : List (K × V)} {M L : Level K} {Us : List (Level K)}
variable {pages : List Nat}

theorem Fits.congr {size : Nat} {root : Prop} (h : Fits N s False size)
    (hl : s'.member.leafMaxSize = s.member.leafMaxSize) (hi : s'.member.internalMaxSize = s.member.internalMaxSize) :
    Fits N s' root size := by
  have hcap : capacity N s' = capacity N s := by
    cases N
    · exact hl
    · simp [capacity, internalMax, hi]
  rw [Fits, hcap]
  exact ⟨h.1, fun _ => h.2.1 not_false, h.2.2⟩

variable [LinearOrder K] [Inhabited K]

theorem Result.up (h : Row N s (fun _ => Fits N s (Us = [])) L es M) (hab : Above s L Us) :
    Result N s es M (ids L ++ allIds Us) := by
  cases N with
  | LeafPage => exact .inr ⟨L, Us, ⟨h.1, hab⟩, rfl, h.2.symm⟩
  | InternalPage => exact ⟨L :: Us, ⟨h.2, h.1, hab⟩, by simp [allIds]⟩

theorem Holds.congr (h : Holds s pages es) (hp : ∀ x ∈ pages, s'.page x = s.page x) (hm : s'.member = s.member) :
    Holds s' pages es := by
  rcases h with ⟨hr, rfl, rfl⟩ | ⟨L, Ls, ht, rfl, rfl⟩
  · exact .inl ⟨by rw [hm]; exact hr, rfl, rfl⟩
  · rw [List.forall_mem_append] at hp
    have hb : ∀ x ∈ ids L, SameBody s s' x := fun x hx => .of_eq (hp.1 x hx)
    refine .inr ⟨L, Ls, ⟨?_, ?_⟩, rfl, by rw [contents, contents, blocks_congr hb]⟩
    · refine (ht.level.congr hb (by rw [hm])).mono fun _ _ size hs => ?_
      simpa [LeafFits, hm] using hs
    · exact ht.above.congr hp.2 (by rw [hm]) (by rw [hm]) fun x hx a hpa => hpa.congr (hp.1 x hx)

theorem Result.congr (h : Result N s es M pages) (hp : ∀ x ∈ pages, s'.page x = s.page x)
    (hk : ∀ x ∈ kidIds N M, s'.page x = s.page x) (hm : s'.member = s.member) : Result N s' es M pages := by
  cases N with
  | LeafPage => exact Holds.congr h hp hm
  | InternalPage =>
    obtain ⟨Us, hab, rfl⟩ := h
    exact ⟨Us, hab.congr hp (by rw [hm]) (by rw [hm]) fun x hx a hpa => hpa.congr (hk x hx), rfl⟩

end Result

section Stay
variable {N : NodeType} {s s' : IndexStore K V} {used free : List Nat} {h : IndexFileHeader} {es : List (K × V)}
variable {M L : Level K} {Ls : List (Level K)} {x : Nat}

theorem Changes.refl {M R : List Nat} : Changes s s M R :=
  ⟨fun _ _ _ => rfl, fun _ _ => .rfl, rfl, rfl⟩

variable [LinearOrder K] [Inhabited K]

theorem Row.node_mem {fits : Nat → Nat → Prop} (hrow : Row N s fits L es M) (hx : x ∈ ids L) :
    IsKind N s x ∧ fits x (sizeOf s x) ∧
      ∃ a, (s.page x).bind IndexFilePage.node = some ⟨N = .LeafPage, x, a, sizeOf s x, capacity N s⟩ := by
  obtain ⟨n, hn, rfl⟩ := List.mem_map.1 hx
  exact hrow.node hn

/-- The caller gives the page back, and deletes it if the call says so. -/
theorem Shrunk.release {s2 s3 : IndexStore K V} {b : Bool} {c : List Nat × Option Nat} {n : Nat}
    (hS : Shrunk N s2 s3 used L Ls es M x b c) (hx : x ∈ used) (hup : x ∉ allIds Ls) (hpx : s2.pins x = n + 1)
    {R : IndexStore K V → Prop}
    (hR : ∀ t, t.pins = Function.update s3.pins x n → t.member = s3.member →
      (∀ z, z ≠ 0 → (b = true → z ≠ x) → t.page z = s3.page z) →
      (∃ used' free' h', Alloc t used' free' h' ∧
        used.Perm (c.1.filter (Function.update s2.pins x n · = 0) ++ used')) → R t) :
    0 < s3.pins x ∧ if b = true then wp exec (deleteIndexPage x) (fun _ => R) (s3.setPins x (s3.pins x - 1))
      else R (s3.setPins x (s3.pins x - 1)) := by
  obtain ⟨D, hD, hcD, used1, free1, h1, ha1, hperm1⟩ := hS.discards
  have hpm : s3.pins x = n + 1 := by
    rw [hS.pins, pinned_eq, hpx]
    rintro a ha rfl
    exact hup (hS.borrowed _ ha)
  have hDf : D.filter (s2.pins · = 0) = D.filter (Function.update s2.pins x n · = 0) := by
    refine List.filter_congr fun z hz => ?_
    have : z ≠ x := by
      rintro rfl
      exact hD hz
    simp [this]
  rw [hDf] at hperm1
  have hcf := hcD.filter (Function.update s2.pins x n · = 0)
  rw [List.filter_append] at hcf
  have hx1 : x ∈ used1 := by
    have := hperm1.subset hx
    rw [List.mem_append, List.mem_filter] at this
    exact this.resolve_left fun hxD => hD hxD.1
  have hstate : (s3.setPins x (s3.pins x - 1)).pins = Function.update s3.pins x n := by
    rw [setPins_pins, hpm, Nat.add_sub_cancel]
  have ha2 : Alloc (s3.setPins x (s3.pins x - 1)) used1 free1 h1 := by
    refine ha1.frame rfl (fun _ _ => rfl) fun z _ hz => ?_
    have : z ≠ x := by
      rintro rfl
      exact hz hx1
    simp [this]
  refine ⟨by omega, ?_⟩
  -- the page stays, or it is the last to be deleted
  cases b with
  | false =>
    rw [if_neg (by simp)]
    refine hR _ hstate rfl (fun _ _ _ => rfl) ⟨used1, free1, h1, ha2, ?_⟩
    simp only [Bool.false_eq_true, if_false, List.filter_nil, List.nil_append] at hcf
    exact hperm1.trans (hcf.symm.append_right _)
  | true =>
    rw [if_pos rfl]
    obtain ⟨m, hm, -⟩ := hS.kind.node
    apply wp_conseq (deleteIndexPage_spec ha2 hx1 ⟨m, hm⟩)
    rintro - t ⟨htp, htm, htpage, used2, free2, h2, ha3, hperm2⟩
    refine hR t (htp.trans hstate) htm (fun z hz0 hzx => htpage z hz0 (hzx rfl)) ⟨used2, free2, h2, ha3, ?_⟩
    rw [hstate, Function.update_self] at hperm2
    have h3 := hperm1.trans (hperm2.append_left _)
    rw [← List.append_assoc] at h3
    refine h3.trans (List.Perm.append_right _ (List.perm_append_comm.trans ?_))
    refine List.Perm.trans ?_ hcf.symm
    by_cases hz : n = 0 <;> simp [hz]

/-- Nothing to do: the walk stops at a page that is large enough. -/
theorem Shrunk.stop {fuel : Nat} (hrow : Row N s (Lacking N s Ls x) L es M) (hx : x ∈ ids L) (hab : Above s L Ls)
    (ha : Alloc s used free h) (hfit : Fits N s (Ls = []) (sizeOf s x))
    (hc : climb s fuel x (sizeOf s x) = ([], none)) :
    Shrunk N s s used L Ls es M x false (climb s fuel x (sizeOf s x)) := by
  rw [hc]
  refine ⟨⟨[], by simp, by simp, used, free, h, ha, by simp⟩, rfl, by simp, .refl, (hrow.node_mem hx).1,
    ids L ++ allIds Ls, ?_, by simp⟩
  refine Result.up ?_ hab
  have hrow' : Row N s (fun y size => (y = x → size = sizeOf s x) ∧ Lacking N s Ls x y size) L es M := by
    cases N with
    | LeafPage =>
      refine ⟨⟨fun n hn => ?_, hrow.1.chained, hrow.1.ordered⟩, hrow.2⟩
      obtain ⟨p, hp, hid, hmax, hs⟩ := hrow.1.leaves n hn
      refine ⟨p, hp, hid, hmax, ?_, hs⟩
      rintro rfl
      rw [sizeOf_leaf hp]
    | InternalPage =>
      refine ⟨fun n hn => ?_, hrow.2⟩
      obtain ⟨p, hp, hid, hmax, hs, hk⟩ := hrow.1 n hn
      refine ⟨p, hp, hid, hmax, ⟨?_, hs⟩, hk⟩
      rintro rfl
      rw [sizeOf_internal hp]
  refine hrow'.mono fun y _ size hs => ?_
  by_cases hy : y = x
  · rw [hs.1 hy]
    exact hfit
  · have := hs.2
    rwa [Lacking, if_neg hy] at this

theorem Shrunk.large {fuel : Nat} (hrow : Row N s (Lacking N s Ls x) L es M) (hx : x ∈ ids L) (hab : Above s L Ls)
    (ha : Alloc s used free h) (hcap : 2 * low N ≤ capacity N s) (hlarge : capacity N s / 2 ≤ sizeOf s x) :
    Shrunk N s s used L Ls es M x false (climb s fuel x (sizeOf s x)) := by
  obtain ⟨-, hs, a, hn⟩ := hrow.node_mem hx
  rw [Lacking, if_pos rfl] at hs
  refine .stop hrow hx hab ha ⟨by omega, fun _ => hlarge, by have := hs.2.2; omega⟩ ?_
  cases fuel with
  | zero => rfl
  | succ fuel => simp [climb, hn, BPlusTreePage.getMinSize, hlarge]

omit [LinearOrder K] [Inhabited K] in
theorem adjustRoot_leaf {p : LeafPage K V} (ha : Alloc s used free h) (hp : s.page x = some (.leaf p))
    (hpar : p.parentPageID = none) (hsize : p.array.length = 0) :
    wp exec (BPlusTree.adjustRoot x) (fun _ s' => s' = (s.withMember { s.member with rootPageID := none }).setPage 0
      (.header { h with rootPageID := none })) s := by
  simp only [BPlusTree.adjustRoot, wp_bind, wp_getNode, hp, Option.bind_some, IndexFilePage.node_leaf,
    Option.some.injEq, exists_eq_left', BPlusTreePage.isRootPage, hpar, hsize, decide_true, Bool.not_true,
    Bool.false_eq_true, if_false, Bool.and_self, if_true, wp_setRootPageID, wp_updateRootPageID, wp_pure,
    withMember_page, ha.header, IndexFilePage.header.injEq, withMember_member]

omit [LinearOrder K] [Inhabited K] in
theorem adjustRoot_internal {p : InternalPage K} {e : K × Nat} {pg : IndexPage K V} {n : BPlusTreePage}
    (ha : Alloc s used free h) (hp : s.page x = some (.internal p)) (hpar : p.parentPageID = none)
    (harr : p.array = [e]) (hx0 : x ≠ 0) (he0 : e.2 ≠ 0) (hex : e.2 ≠ x) (hpg : s.page e.2 = some pg)
    (hn : pg.node = some n) (hid : n.pageID = e.2) :
    wp exec (BPlusTree.adjustRoot x) (fun _ s' => s' = (((s.setPage x (.internal { p with array := [] })).withMember
      { s.member with rootPageID := some e.2 }).setPage 0 (.header { h with rootPageID := some e.2 })).setPage e.2
      (pg.setParentPageID none)) s := by
  have hn' := node_setParentPageID hn none
  simp only [BPlusTree.adjustRoot, InternalPage.removeAndReturnOnlyChild, wp_bind, wp_getNode, hp, Option.bind_some,
    IndexFilePage.node_internal, Option.some.injEq, exists_eq_left', BPlusTreePage.isRootPage, hpar, harr,
    List.length_singleton, decide_true, Bool.not_true, Bool.false_eq_true, if_false, Bool.false_and, Bool.not_false,
    Bool.true_and, if_true, wp_getInternal, IndexFilePage.internal.injEq, wp_require, InternalPage.valueAt,
    List.getElem?_cons_zero, Option.map_some, wp_setInternal, wp_setRootPageID, wp_updateRootPageID, wp_fetchPage,
    wp_setParentPageID, wp_unpinPage, wp_pure, setPage_page, withMember_page, setPins_page,
    Function.update_of_ne (Ne.symm hx0), ha.header, IndexFilePage.header.injEq, Function.update_of_ne he0,
    Function.update_of_ne hex, hpg, Function.update_self, hn', hid, setPage_pins, setPins_pins, withMember_member,
    setPage_member]
  refine ⟨⟨_, rfl⟩, ⟨_, rfl⟩, by omega, ?_⟩
  simp [setPins, setPage, withMember, InternalPage.setSize, InternalPage.getSize, harr, hpar, INVALID_PAGE_ID]

/-- A root that has become empty, or has one child left, is discarded. -/
theorem coalesceOrRedistribute_collapse {fuel : Nat} (hrow : Row N s (Lacking N s [] x) L es M) (hx : x ∈ ids L)
    (hab : Above s L []) (ha : Alloc s used free h) (hlow : sizeOf s x + 1 = low N)
    (hnd : (kidIds N M ++ ids L).Nodup) (hsub : ∀ y ∈ kidIds N M ++ ids L, y ∈ used) :
    wp exec (BPlusTree.coalesceOrRedistribute (fuel + 1) N x)
      (fun b s' => Shrunk N s s' used L [] es M x b ([x], none)) s := by
  obtain ⟨r, rfl, hroot, hpar⟩ := id hab
  obtain rfl : x = r := by simpa using hx
  have hxu : x ∈ used := hsub x (by simp)
  have hx0 := ha.ne_zero hxu
  have halloc := ha.setRoot
  cases N with
  | LeafPage =>
    obtain ⟨p, hp, hid, hmax, -⟩ := hrow.1.leaves (⊥, x) (by simp)
    have hp : s.page x = some (.leaf p) := hp
    have hz : p.array.length = 0 := by
      rw [sizeOf_leaf hp] at hlow
      simpa [low] using hlow
    have hpn : p.parentPageID = none := ((hasParent_leaf hp).1 hpar).2
    -- an empty leaf as root: the tree is empty
    simp only [BPlusTree.coalesceOrRedistribute, wp_bind, wp_getNode, hp, Option.bind_some, IndexFilePage.node_leaf,
      Option.some.injEq, exists_eq_left', hpn, hz, decide_true, Bool.and_self, if_true, wp_pure]
    apply wp_conseq (adjustRoot_leaf ha hp hpn hz)
    rintro - s' rfl
    refine ⟨⟨[], by simp, by simp, used, free, _, ha.setRoot none, by simp⟩, rfl, by simp, ?_,
      ⟨p, by simpa [hx0] using hp, hid⟩, [], .inl ⟨rfl, rfl, ?_⟩, by simp⟩
    · refine ⟨fun y _ hy => ?_, fun y hy => .of_eq ?_, rfl, rfl⟩
      · simp only [List.mem_cons, not_or] at hy
        simp [hy.1]
      · simp only [List.mem_cons, not_or] at hy
        simp [hy.1]
    · rw [← hrow.2, contents, blocks_cons, blocks_nil, entries_eq (n := (⊥, x)) hp]
      simpa using List.length_eq_zero_iff.1 hz
  | InternalPage =>
    obtain ⟨p, hp, hid, hmax, -, hk, -⟩ := hrow.1 (⊥, x) (by simp)
    have hp : s.page x = some (.internal p) := hp
    have hz : p.array.length = 1 := by
      rw [sizeOf_internal hp] at hlow
      simpa [low] using hlow
    obtain ⟨e, he⟩ := List.length_eq_one_iff.1 hz
    have hpn : p.parentPageID = none := ((hasParent_internal hp).1 hpar).2
    -- an internal page with one child: the child is the root now
    have hM : M = [(⊥, e.2)] := by
      rw [← hrow.2, below_cons, below_nil, children_eq (n := (⊥, x)) hp, he]
      rfl
    subst hM
    have heu : e.2 ∈ used := hsub e.2 (by simp [kidIds])
    have hex : e.2 ≠ x := by
      rintro rfl
      simp [kidIds] at hnd
    have he0 := ha.ne_zero heu
    have hpe := hk e (by simp [he])
    obtain ⟨n, hn, hnid, -⟩ := id hpe
    obtain ⟨pg, hpg, hnode⟩ := Option.bind_eq_some_iff.1 hn
    simp only [BPlusTree.coalesceOrRedistribute, wp_bind, wp_getNode, hp, Option.bind_some, IndexFilePage.node_internal,
      Option.some.injEq, exists_eq_left', hpn, hz, decide_true, Bool.false_and, Bool.false_eq_true, if_false,
      Bool.not_false, Bool.and_self, if_true, wp_pure]
    apply wp_conseq (adjustRoot_internal ha hp hpn he hx0 he0 hex hpg hnode hnid)
    rintro - s' rfl
    have halloc : Alloc ((((s.setPage x (.internal { p with array := [] })).withMember
        { s.member with rootPageID := some e.2 }).setPage 0 (.header { h with rootPageID := some e.2 })).setPage e.2
        (pg.setParentPageID none)) used free { h with rootPageID := some e.2 } := by
      refine (((ha.frame (rfl : (s.setPage x (.internal { p with array := [] })).member.rootPageID = _) (fun y hy => ?_)
        fun _ _ _ => rfl).setRoot
        (some e.2)).frame rfl (fun y hy => ?_) fun _ _ _ => rfl)
      · have : y ≠ x := by rintro rfl; exact hy hxu
        simp [this]
      · have : y ≠ e.2 := by rintro rfl; exact hy heu
        simp [this]
    refine ⟨⟨[], by simp, by simp, used, free, _, halloc, by simp⟩, rfl, by simp, ?_,
      ⟨{ p with array := [] }, by simp [hx0, Ne.symm hex], hid⟩, [], ⟨[], ⟨e.2, rfl, rfl, ?_⟩, rfl⟩, by simp⟩
    · refine ⟨fun y hy hy' => ?_, fun y hy => ?_, rfl, rfl⟩
      · simp only [kidIds, List.map_cons, List.map_nil, List.mem_cons, List.mem_append, not_or] at hy hy'
        simp [hy, hy'.1, hy'.2.1]
      · simp only [List.map_cons, List.map_nil, List.mem_cons, List.mem_append, not_or] at hy
        -- of the child only the parent changes
        rcases eq_or_ne y e.2 with rfl | hye
        · simp [SameBody, hpg]
        · exact .of_eq (by simp [hye, hy.1, hy.2.1])
    · exact hpe.set hpg (by simp)

/-- The walk ends at the root. -/
theorem coalesceOrRedistribute_root {fuel : Nat} (hrow : Row N s (Lacking N s [] x) L es M) (hx : x ∈ ids L)
    (hab : Above s L []) (ha : Alloc s used free h) (hcap : 2 * low N ≤ capacity N s)
    (hsmall : sizeOf s x < capacity N s / 2) (hnd : (kidIds N M ++ ids L).Nodup)
    (hsub : ∀ y ∈ kidIds N M ++ ids L, y ∈ used) :
    wp exec (BPlusTree.coalesceOrRedistribute (fuel + 1) N x)
      (fun b s' => Shrunk N s s' used L [] es M x b (climb s (fuel + 1) x (sizeOf s x))) s := by
  obtain ⟨-, hs, a, hn⟩ := hrow.node_mem hx
  obtain ⟨r, rfl, -, n', hn', -, hp'⟩ := id hab
  obtain rfl : x = r := by simpa using hx
  obtain rfl : none = a := by
    rw [hn] at hn'
    cases hn'
    exact hp'.symm
  rw [Lacking, if_pos rfl] at hs
  have hmin : ¬ capacity N s / 2 ≤ sizeOf s x := by omega
  have hclimb : climb s (fuel + 1) x (sizeOf s x) =
      if sizeOf s x + 1 = low N then ([x], none) else ([], none) := by
    simp only [climb, hn, BPlusTreePage.getMinSize, hmin, if_false]
    cases N <;> simp [low]
  by_cases hlow : sizeOf s x + 1 = low N
  · rw [hclimb, if_pos hlow]
    exact coalesceOrRedistribute_collapse hrow hx hab ha hlow hnd hsub
  · have hstop := Shrunk.stop hrow hx hab ha ⟨by have := hs.1; omega, by simp, by have := hs.2.2; omega⟩
      (hclimb.trans (if_neg hlow))
    cases N <;> simp only [low] at hlow
    · simpa [BPlusTree.coalesceOrRedistribute, hn, show ¬ sizeOf s x = 0 by omega] using hstop
    · simpa [BPlusTree.coalesceOrRedistribute, hn, show ¬ sizeOf s x = 1 by omega] using hstop

end Stay

/-! ## The parent of two siblings -/

namespace Family

variable {N : NodeType} {s s1 s2 : IndexStore K V} {fits : Nat → Nat → Prop} {L L' M : Level K} {Ls : List (Level K)}
variable {Z : List (K × Nat)} {es : List (K × V)}

/-- After the entries of the siblings of `f` were moved, and with the entries `Z`
after the left one's in their parent. -/
structure Moves [LinearOrder K] [Inhabited K] (f : Family s L L') (N : NodeType) (s2 : IndexStore K V)
    (fits : Nat → Nat → Prop) (Z : List (K × Nat))
    (es : List (K × V)) (M : Level K) : Prop where
  parent : s2.page f.m.2 = some (.internal { f.p with array := f.X ++ f.el :: Z })
  page : ∀ y, y ≠ f.l.2 → y ≠ f.er.2 → y ≠ f.m.2 → y ∉ kidIds N M → s2.page y = s.page y
  body : ∀ y ∈ kidIds N M, SameBody s s2 y
  same : ∀ y a, y = f.l.2 ∨ y = f.er.2 → HasParent s y a → HasParent s2 y a
  kind : ∀ y, y = f.l.2 ∨ y = f.er.2 → IsKind N s2 y
  member : s2.member = s.member
  row : Row N s2 fits (f.A ++ f.l :: (Z.map cell ++ below s f.B')) es M

/-- The siblings, their parent and the pages below and above them are different pages. -/
theorem apart (f : Family s L L') (hnd : (kidIds N M ++ (ids L ++ allIds (L' :: Ls))).Nodup) :
    f.m.2 ∈ ids L' ∧ f.l.2 ∈ ids L ∧ f.er.2 ∈ ids L ∧ f.l.2 ≠ f.er.2 ∧ f.m.2 ≠ f.l.2 ∧ f.m.2 ≠ f.er.2 ∧
      f.m.2 ∉ kidIds N M ∧ f.m.2 ∉ allIds Ls ∧ ∀ y ∈ ids L ++ allIds (L' :: Ls), y ∉ kidIds N M := by
  have hm : f.m.2 ∈ ids L' := by simp [f.above]
  have hids := f.ids_eq
  have hl : f.l.2 ∈ ids L := by simp [hids]
  have hr : f.er.2 ∈ ids L := by simp [hids]
  obtain ⟨hk, hnd', hdisj⟩ := List.nodup_append.1 hnd
  obtain ⟨hL, hup, hdisj'⟩ := List.nodup_append.1 hnd'
  have hmu : f.m.2 ∈ allIds (L' :: Ls) := by simp [allIds, hm]
  refine ⟨hm, hl, hr, ?_, ?_, ?_, ?_, ?_, fun y hy hy' => hdisj y hy' y hy rfl⟩
  · rw [hids] at hL
    grind [List.nodup_append]
  · exact fun h => hdisj' _ hl _ hmu h.symm
  · exact fun h => hdisj' _ hr _ hmu h.symm
  · exact fun h => hdisj _ h _ (List.mem_append_right _ hmu) rfl
  · rw [allIds, List.flatMap_cons] at hup
    exact fun h => (List.nodup_append.1 hup).2.2 _ hm _ h rfl

/-- The level, read off the level above. -/
theorem below_eq (f : Family s L L') (hb : below s L' = L) :
    L = below s f.A' ++ MisakiDB.row f.m.1 f.p.array ++ below s f.B' :=
  hb.symm.trans ((congrArg (below s) f.above).trans (by simp [children_eq f.page]))

/-- The row has no new pages. -/
theorem ids_sub (f : Family s L L') (hZ : ∀ e ∈ Z, e.2 ∈ (f.er :: f.Y).map (·.2)) :
    ∀ y ∈ ids (f.A ++ f.l :: (Z.map cell ++ below s f.B')), y ∈ ids L := by
  intro y hy
  rw [f.ids_eq, f.right]
  simp only [ids, List.map_append, List.map_cons, List.mem_append, List.mem_cons] at hy ⊢
  rcases hy with hy | hy | hy | hy
  · exact .inl hy
  · exact .inr (.inl hy)
  · rw [← ids, ids_cells] at hy
    obtain ⟨e, he, rfl⟩ := List.mem_map.1 hy
    have := hZ e he
    rw [List.map_cons, List.mem_cons] at this
    rcases this with h | h
    · exact .inr (.inr (.inl h))
    · exact .inr (.inr (.inr (.inl (by rw [← ids, ids_cells]; exact h))))
  · exact .inr (.inr (.inr (.inr hy)))

variable [LinearOrder K] [Inhabited K]

theorem moves (f : Family s L L') (hnd : (kidIds N M ++ (ids L ++ allIds (L' :: Ls))).Nodup) {s0 : IndexStore K V}
    (h0 : s0.page = s.page) (h0m : s0.member = s.member) (hmv : Moved N s0 s1 f.l.2 f.er.2 M)
    (hrow : Row N s1 fits (f.A ++ f.l :: (Z.map cell ++ below s f.B')) es M)
    (hZ : ∀ e ∈ Z, e.2 ∈ (f.er :: f.Y).map (·.2))
    (h2 : s2 = s1.setPage f.m.2 (.internal { f.p with array := f.X ++ f.el :: Z })) : f.Moves N s2 fits Z es M := by
  subst h2
  obtain ⟨hm, hl, hr, hlr, hml, hmr, hmk, -, hk⟩ := f.apart hnd
  have hne : ∀ y, y ≠ f.m.2 → (s1.setPage f.m.2 (.internal { f.p with array := f.X ++ f.el :: Z })).page y =
      s1.page y := by
    intro y hy
    simp [hy]
  have hb : ∀ y, SameBody s0 s1 y → SameBody s s1 y := by
    intro y hy
    rwa [SameBody, h0] at hy
  have hlm : ∀ y, y = f.l.2 ∨ y = f.er.2 → y ≠ f.m.2 := by
    rintro y (rfl | rfl)
    · exact Ne.symm hml
    · exact Ne.symm hmr
  have hkm : ∀ y ∈ kidIds N M, y ≠ f.m.2 := by
    rintro y hy rfl
    exact hmk hy
  refine ⟨by simp, fun y h1 h2 h3 h4 => ?_, fun y hy => ?_, fun y a hy hpa => ?_, fun y hy => ?_, ?_, ?_⟩
  · rw [hne y h3, hmv.page y h1 h2 h4, h0]
  · exact (hb y (hmv.body y hy)).trans (.of_eq (hne y (hkm y hy)))
  · exact (hmv.parent y a hy (hpa.congr (by rw [h0]))).congr (hne y (hlm y hy))
  · exact (hmv.kind y hy).congr (.of_eq (hne y (hlm y hy)))
  · exact hmv.member.trans h0m
  · refine hrow.congr (fun y hy => .of_eq (hne y ?_)) rfl rfl fun y hy a hpa => hpa.congr (hne y (hkm y hy))
    rintro rfl
    exact (List.nodup_append.1 (List.nodup_append.1 hnd).2.1).2.2 _ (f.ids_sub hZ _ hy) _
      (List.mem_append_left _ hm) rfl

/-- The level above with other entries in the siblings' parent. -/
theorem Moves.above {f : Family s L L'} (h : f.Moves N s2 fits Z es M) {fits' : Nat → Nat → Prop}
    (hab : Above s L (L' :: Ls)) (hnd : (kidIds N M ++ (ids L ++ allIds (L' :: Ls))).Nodup)
    (hf : ∀ y ∈ ids L', y ≠ f.m.2 → ∀ size, InternalFits s (Ls = []) size → fits' y size)
    (hfm : fits' f.m.2 (f.X ++ f.el :: Z).length) (hZ : ∀ e ∈ Z, e.2 ∈ (f.er :: f.Y).map (·.2)) (fs : List (K × V)) :
    Row .InternalPage s2 fits' L' fs (f.A ++ f.l :: (Z.map cell ++ below s f.B')) ∧ Above s2 L' Ls := by
  obtain ⟨hm, hl, hr, hlr, hml, hmr, hmk, hmu, hk⟩ := f.apart hnd
  obtain ⟨-, hnd', -⟩ := List.nodup_append.1 hnd
  obtain ⟨-, hup, hdisj⟩ := List.nodup_append.1 hnd'
  have hpage : ∀ y ∈ allIds (L' :: Ls), y ≠ f.m.2 → s2.page y = s.page y := by
    intro y hy hym
    refine h.page y ?_ ?_ hym (hk y (List.mem_append_right _ hy))
    · rintro rfl
      exact hdisj _ hl _ hy rfl
    · rintro rfl
      exact hdisj _ hr _ hy rfl
  have hkeep : ∀ y ∈ ids L, ∀ a, HasParent s y a → HasParent s2 y a := by
    intro y hy a hpa
    by_cases hlr : y = f.l.2 ∨ y = f.er.2
    · exact h.same y a hlr hpa
    · rw [not_or] at hlr
      refine hpa.congr (h.page y hlr.1 hlr.2 ?_ (hk y (List.mem_append_left _ hy)))
      rintro rfl
      exact hdisj _ hy _ (List.mem_append_left _ hm) rfl
  have hsub : ∀ y ∈ ids L', y ∈ allIds (L' :: Ls) := fun y hy => List.mem_append_left _ hy
  obtain ⟨hb, hlink, habove⟩ := hab
  have hmem := h.member
  have hA : ids L' = ids f.A' ++ f.m.2 :: ids f.B' := (congrArg ids f.above).trans (by simp)
  have hside : ∀ y ∈ ids f.A' ++ ids f.B', y ∈ ids L' ∧ y ≠ f.m.2 := by
    intro y hy
    rw [allIds, List.flatMap_cons] at hup
    have hL' := (List.nodup_append.1 hup).1
    rw [hA] at hL' ⊢
    refine ⟨by simp only [List.mem_append, List.mem_cons] at hy ⊢; tauto, ?_⟩
    rintro rfl
    exact (List.nodup_cons.1 (List.perm_middle.nodup_iff.1 hL')).1 hy
  have hbelow : ids (below s f.A') ++ ids (below s f.B') ⊆ ids L := by
    intro y hy
    rw [f.below_eq hb]
    simp only [ids, List.map_append, List.mem_append] at hy ⊢
    tauto
  -- the siblings' parent lies between others of its level, which keep their content
  have hlink' : Linked s (fun _ => InternalFits s (Ls = [])) (f.A' ++ f.m :: f.B') := f.above ▸ hlink
  obtain ⟨p, hp, hpid, hpmax, -, hkids, hfirst⟩ := hlink' f.m (by simp)
  obtain rfl : p = f.p := by simpa [hp] using f.page
  obtain ⟨h1, h2⟩ := hlink'.splice (N := [f.m])
    (fun y hy => .of_eq (hpage y (hsub y (hside y hy).1) (hside y hy).2)) (by rw [hmem])
    (fun y hy => hkeep y (hbelow hy)) (fun y hy => hf y (hside y hy).1 (hside y hy).2) (by
      intro n hn
      rw [List.mem_singleton] at hn
      subst hn
      refine ⟨_, h.parent, hpid, by rw [internalMax, hmem]; exact hpmax, hfm, fun e he => ?_, (f.array ▸ hfirst).head⟩
      have he' : e.2 ∈ f.p.array.map (·.2) := by
        rw [f.array]
        simp only [List.map_append, List.map_cons, List.mem_append, List.mem_cons] at he ⊢
        rcases he with he | rfl | he
        · exact .inl (List.mem_map_of_mem he)
        · exact .inr (.inl rfl)
        · exact .inr (.inr (by simpa using hZ e he))
      obtain ⟨g, hg, hge⟩ := List.mem_map.1 he'
      have hgL : g.2 ∈ ids L := by
        rw [f.below_eq hb, ids, List.map_append, List.map_append, ← ids, ← ids, ids_row]
        exact List.mem_append_left _ (List.mem_append_right _ (List.mem_map_of_mem hg))
      exact hge ▸ hkeep _ hgL _ (hkids g hg))
  -- what is left of the two siblings takes their place in the level below
  have hrow : MisakiDB.row f.m.1 (f.X ++ f.el :: Z) = MisakiDB.row f.m.1 (f.X ++ [f.el]) ++ Z.map cell := by
    rw [← row_append (by simp)]
    simp
  refine ⟨⟨?_, ?_⟩, habove.congr (fun y hy => ?_) (by rw [hmem]) (by rw [hmem]) fun y hy a hpa => ?_⟩
  · rw [f.above]
    simpa using h1
  · have h2' : below s2 L' = below s f.A' ++ MisakiDB.row f.m.1 (f.X ++ f.el :: Z) ++ below s f.B' :=
      (congrArg (below s2) f.above).trans (by simpa [children_eq h.parent] using h2)
    rw [h2', hrow, ← List.append_assoc, ← f.left]
    simp
  · apply hpage y (by simp only [allIds, List.flatMap_cons, List.mem_append]; exact .inr hy)
    rintro rfl
    exact hmu hy
  -- the parent has new entries and the same parent of its own
  · by_cases hym : y = f.m.2
    · subst hym
      rw [hasParent_internal f.page] at hpa
      exact (hasParent_internal h.parent).2 hpa
    · exact hpa.congr (hpage y (hsub y hy) hym)

end Family

end MisakiDB
