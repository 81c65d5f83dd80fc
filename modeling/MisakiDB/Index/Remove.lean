import MisakiDB.Index.Merge
/-!
# What a removal does

The two things that can happen to a page that lacks an entry, `coalesce` and
`redistribute`, the walk up by induction on the levels, and `remove` itself.
-/

namespace MisakiDB

open Prog PageStore Blocks

variable {K V : Type} [LinearOrder K]

namespace Family

variable [Inhabited K] {N : NodeType} {s : IndexStore K V} {L L' M : Level K} {Ls : List (Level K)} {es : List (K × V)}
  {x y : Nat}

/-- The page `x` of the row `L` is too small, and `y` is its sibling. -/
structure Short (f : Family s L L') (N : NodeType) (Ls : List (Level K)) (es : List (K × V)) (M : Level K) (x y : Nat) :
    Prop where
  found : f.At x y
  row : Row N s (Lacking N s (L' :: Ls) x) L es M
  above : Above s L (L' :: Ls)
  nodup : (kidIds N M ++ (ids L ++ allIds (L' :: Ls))).Nodup
  cap : 2 * low N ≤ capacity N s
  small : sizeOf s x < capacity N s / 2

variable {f : Family s L L'}

theorem Short.mem (h : f.Short N Ls es M x y) : x ∈ ids L ∧ y ∈ ids L ∧ x ≠ y := by
  obtain ⟨-, hl, hr, hlr, -⟩ := f.apart h.nodup
  rcases h.found.page with ⟨rfl, rfl⟩ | ⟨rfl, rfl⟩
  · exact ⟨hl, hr, hlr⟩
  · exact ⟨hr, hl, Ne.symm hlr⟩

theorem Short.sizes (h : f.Short N Ls es M x y) :
    low N ≤ sizeOf s x + 1 ∧ low N ≤ sizeOf s y ∧ capacity N s / 2 ≤ sizeOf s x + 1 ∧ capacity N s / 2 ≤ sizeOf s y ∧
      sizeOf s y < capacity N s := by
  obtain ⟨hx, hy, hxy⟩ := h.mem
  obtain ⟨-, hfx, -⟩ := h.row.node_mem hx
  obtain ⟨-, hfy, -⟩ := h.row.node_mem hy
  rw [Lacking, if_pos rfl] at hfx
  rw [Lacking, if_neg (Ne.symm hxy)] at hfy
  exact ⟨hfx.1, hfy.1, hfx.2.1 (by simp), hfy.2.1 (by simp), hfy.2.2⟩

theorem Short.node (h : f.Short N Ls es M x y) : (s.page x).bind IndexFilePage.node =
    some ⟨N = .LeafPage, x, some f.m.2, sizeOf s x, capacity N s⟩ := by
  obtain ⟨-, -, a, ha⟩ := h.row.node_mem h.mem.1
  obtain ⟨n, hn, -, hp⟩ := h.found.parent
  rw [ha] at hn
  cases hn
  rw [ha]
  exact congrArg some (by rw [← hp])

theorem Short.sibling (h : f.Short N Ls es M x y) : ∃ a, (s.page y).bind IndexFilePage.node =
    some ⟨N = .LeafPage, y, a, sizeOf s y, capacity N s⟩ :=
  (h.row.node_mem h.mem.2.1).2.2

/-- The other pages of the row lack nothing. -/
theorem Short.others (h : f.Short N Ls es M x y) :
    ∀ z ∈ ids f.A ++ ids f.B, ∀ size, Lacking N s (L' :: Ls) x z size → Fits N s False size := by
  intro z hz size hs
  have hnd : ([] ++ ids L).Nodup := by simpa using (List.nodup_append.1 (List.nodup_append.1 h.nodup).2.1).1
  have hne := (pair_apart f.level hnd).2.1 z hz
  have hzx : z ≠ x := by
    rcases h.found.page with ⟨rfl, -⟩ | ⟨rfl, -⟩
    · exact hne.1
    · exact hne.2
  rw [Lacking, if_neg hzx] at hs
  exact ⟨hs.1, fun _ => hs.2.1 (by simp), hs.2.2⟩

theorem Short.level (h : f.Short N Ls es M x y) {s0 : IndexStore K V} (h0 : s0.page = s.page)
    (h0m : s0.member = s.member) : Row N s0 (Lacking N s (L' :: Ls) x) (f.A ++ f.l :: cell f.er :: f.B) es M ∧
      (kidIds N M ++ ids (f.A ++ f.l :: cell f.er :: f.B)).Nodup := by
  refine ⟨?_, ?_⟩
  · have : Row N s0 _ L es M := h.row.congr (fun z _ => .of_eq (by rw [h0])) (by rw [h0m]) (by rw [h0m])
      fun z _ a hpa => hpa.congr (by rw [h0])
    rwa [f.level] at this
  · have h1 : (kidIds N M ++ ids L).Nodup :=
      h.nodup.sublist ((List.sublist_append_left _ _).append_left _)
    rwa [f.level] at h1

omit [LinearOrder K] [Inhabited K] in
theorem remove_eq (f : Family s L L') :
    f.p.remove (f.X.length + 1) = some { f.p with array := f.X ++ f.el :: f.Y } := by
  rw [InternalPage.remove, InternalPage.getSize, f.array, if_pos (by simp)]
  simp [List.eraseIdx_append_of_length_le]

omit [LinearOrder K] [Inhabited K] in
theorem valueAt_eq (f : Family s L L') : f.p.valueAt (f.X.length + 1) = some f.er.2 :=
  InternalPage.valueAt_eq (X := f.X ++ [f.el]) (Y := f.Y) (by rw [f.array]; simp) (by simp)

omit [LinearOrder K] [Inhabited K] in
theorem keyAt_eq (f : Family s L L') : f.p.keyAt (f.X.length + 1) = some f.er.1 :=
  InternalPage.keyAt_eq (X := f.X ++ [f.el]) (Y := f.Y) (by rw [f.array]; simp) (by simp)

omit [LinearOrder K] [Inhabited K] in
theorem setKeyAt_eq (f : Family s L L') (key : K) :
    f.p.setKeyAt (f.X.length + 1) key = some { f.p with array := f.X ++ f.el :: (key, f.er.2) :: f.Y } := by
  rw [InternalPage.setKeyAt_eq (X := f.X ++ [f.el]) (Y := f.Y) (e := f.er) (by rw [f.array]; simp) (by simp)]
  simp

/-- The move of a merge, for both kinds of row. -/
theorem Short.merge (h : f.Short N Ls es M x y) (hfit : sizeOf s y + sizeOf s x < capacity N s) {s0 : IndexStore K V}
    (h0 : s0.page = s.page) (h0m : s0.member = s.member) :
    wp exec (match N with
      | .LeafPage => LeafPage.moveAllTo f.er.2 f.l.2
      | .InternalPage => do InternalPage.moveAllTo f.er.2 f.l.2 (← require (f.p.keyAt (f.X.length + 1))))
      (fun _ s' => Row N s' (fun _ => Fits N s False) (f.A ++ f.l :: f.B) es M ∧
        Moved N s0 s' f.l.2 f.er.2 M) s0 := by
  obtain ⟨hrow, hnd⟩ := h.level h0 h0m
  obtain ⟨hx1, hy1, hx2, hy2, -⟩ := h.sizes
  have hsum : sizeOf s f.l.2 + sizeOf s f.er.2 = sizeOf s y + sizeOf s x := by
    rcases h.found.page with ⟨rfl, rfl⟩ | ⟨rfl, rfl⟩ <;> omega
  have hsize : ∀ z, sizeOf s0 z = sizeOf s z := fun z => by rw [sizeOf, sizeOf, h0]
  have hfits : Fits N s False (sizeOf s0 f.l.2 + sizeOf s0 f.er.2) := by
    rw [hsize, hsize, hsum]
    exact ⟨by omega, fun _ => by omega, by omega⟩
  cases N with
  | LeafPage => exact moveAllTo_leaf hrow hnd h.others hfits
  | InternalPage =>
    simp only [low] at hx1 hy1
    have hl1 : 1 ≤ sizeOf s0 f.l.2 ∧ 1 ≤ sizeOf s0 f.er.2 := by
      rw [hsize, hsize]
      rcases h.found.page with ⟨rfl, rfl⟩ | ⟨rfl, rfl⟩ <;> omega
    simp only [wp_bind, wp_require, f.keyAt_eq, Option.some.injEq, exists_eq_left']
    exact moveAllTo_internal hrow hnd h.others rfl hl1.1 hl1.2 hfits

/-- A merge of the two pages, and the walk on from their parent if that has become too small. -/
theorem Short.coalesce (h : f.Short N Ls es M x y) (hfit : sizeOf s y + sizeOf s x < capacity N s) (s0 : IndexStore K V)
    (h0 : s0.page = s.page) (h0m : s0.member = s.member) {up : Nat → IndexProg K V Bool}
    {Q : Nat × Nat × Bool → IndexStore K V → Prop}
    (hup : ∀ s2, s2.pins = s0.pins → f.Moves N s2 (fun _ => Fits N s False) f.Y es M →
      wp exec (if (f.X ++ f.el :: f.Y).length < f.p.maxSize / 2 then up f.m.2 else pure false)
        (fun b => Q (f.l.2, f.er.2, b)) s2) :
    wp exec (BPlusTree.coalesce up N y x f.m.2 (f.X.length + 1)) Q s0 := by
  obtain ⟨hm, -, -, hlr, hml, hmr, hmk, -⟩ := f.apart h.nodup
  obtain ⟨a, hy⟩ := h.sibling
  -- after the swap the left page of the two takes the entries
  have hswap : (if f.er.2 = y then (x, y) else (y, x)) = (f.l.2, f.er.2) := by
    rcases h.found.page with ⟨rfl, rfl⟩ | ⟨rfl, rfl⟩
    · rw [if_pos rfl]
    · rw [if_neg (Ne.symm hlr)]
  simp only [BPlusTree.coalesce, wp_bind, wp_getInternal, h0, f.page, Option.some.injEq, IndexFilePage.internal.injEq,
    exists_eq_left', wp_require, f.valueAt_eq, wp_getNode, hy, hswap]
  have hmerge := h.merge hfit h0 h0m
  have hrest : ∀ s1, Row N s1 (fun _ => Fits N s False) (f.A ++ f.l :: f.B) es M → Moved N s0 s1 f.l.2 f.er.2 M →
      wp exec (do
        let p ← require ((← getInternal f.m.2).remove (f.X.length + 1))
        setInternal f.m.2 p
        if p.getSize < p.getMinSize then pure (f.l.2, f.er.2, ← up f.m.2)
        else pure (f.l.2, f.er.2, false)) Q s1 := by
    intro s1 hrow hmv
    have hpm : s1.page f.m.2 = some (.internal f.p) := by rw [hmv.page f.m.2 hml hmr hmk, h0, f.page]
    simp only [wp_bind, wp_getInternal, hpm, Option.some.injEq, IndexFilePage.internal.injEq, exists_eq_left',
      wp_require, f.remove_eq, wp_setInternal]
    refine ⟨⟨_, rfl⟩, ?_⟩
    rw [f.right] at hrow
    have := hup (s1.setPage f.m.2 (.internal { f.p with array := f.X ++ f.el :: f.Y })) hmv.pins
      (f.moves h.nodup h0 h0m hmv hrow (fun e he => List.mem_map_of_mem (List.mem_cons_of_mem _ he)) rfl)
    rw [wp_ite] at this ⊢
    simp only [InternalPage.getSize, InternalPage.getMinSize, wp_bind, wp_pure]
    simpa only [wp_pure] using this
  -- an internal page takes the separator along, a leaf does not
  cases N with
  | LeafPage =>
    rw [wp_bind]
    exact wp_conseq hmerge fun _ s1 hs1 => hrest s1 hs1.1 hs1.2
  | InternalPage =>
    simp only [wp_bind, wp_require, f.keyAt_eq, Option.some.injEq, exists_eq_left'] at hmerge hrest ⊢
    exact wp_conseq hmerge fun _ s1 hs1 => hrest s1 hs1.1 hs1.2

/-- One entry goes from the sibling to the small page; the parent keeps a pin. -/
theorem Short.redistribute (h : f.Short N Ls es M x y) (hfit : ¬ sizeOf s y + sizeOf s x < capacity N s)
    (s0 : IndexStore K V) (h0 : s0.page = s.page) (h0m : s0.member = s.member) {Q : Unit → IndexStore K V → Prop}
    (hdone : ∀ s2 key, s2.pins = Function.update s0.pins f.m.2 (s0.pins f.m.2 + 1) →
      f.Moves N s2 (fun _ => Fits N s False) ((key, f.er.2) :: f.Y) es M → Q () s2) :
    wp exec (BPlusTree.redistribute N y x (f.X.length + 1)) Q s0 := by
  obtain ⟨hm, -, -, hlr, hml, hmr, hmk, -⟩ := f.apart h.nodup
  obtain ⟨hx1, hy1, hx2, hy2, hy3⟩ := h.sizes
  have hsmall := h.small
  have hcap := h.cap
  have hsize : ∀ z, sizeOf (s0.setPins f.m.2 (s0.pins f.m.2 + 1)) z = sizeOf s z := fun z => by
    rw [sizeOf, sizeOf, setPins_page, h0]
  obtain ⟨hrow, hnd⟩ := h.level (show (s0.setPins f.m.2 (s0.pins f.m.2 + 1)).page = s.page from h0) h0m
  have hfx : Fits N s False (sizeOf s x + 1) := ⟨by omega, fun _ => by omega, by omega⟩
  have hfy : Fits N s False (sizeOf s y - 1) := ⟨by omega, fun _ => by omega, by omega⟩
  -- the parent gets the new key
  have hend : ∀ s1 (key : K),
      Row N s1 (fun _ => Fits N s False) (f.A ++ f.l :: ((key : WithBot K), f.er.2) :: f.B) es M →
      Moved N (s0.setPins f.m.2 (s0.pins f.m.2 + 1)) s1 f.l.2 f.er.2 M →
      wp exec (do setInternal f.m.2 (← require (f.p.setKeyAt (f.X.length + 1) key))) Q s1 := by
    intro s1 key hrow hmv
    have hpm : s1.page f.m.2 = some (.internal f.p) := by rw [hmv.page f.m.2 hml hmr hmk, setPins_page, h0, f.page]
    simp only [wp_bind, wp_require, f.setKeyAt_eq, Option.some.injEq, exists_eq_left', wp_setInternal]
    refine ⟨⟨_, hpm⟩, hdone _ key (by rw [setPage_pins, hmv.pins, setPins_pins]) ?_⟩
    rw [f.right] at hrow
    refine f.moves h.nodup (show (s0.setPins f.m.2 (s0.pins f.m.2 + 1)).page = s.page by simpa using h0)
      (by simpa using h0m) hmv
      (by simpa [cell] using hrow) (fun e he => ?_) rfl
    rw [List.mem_cons] at he
    rcases he with rfl | he
    · simp
    · exact List.mem_map_of_mem (List.mem_cons_of_mem _ he)
  simp only [BPlusTree.redistribute, wp_bind, wp_getNode, h0, h.node, Option.some.injEq, exists_eq_left', wp_require,
    wp_fetchPage, wp_getInternal, setPins_page, f.page, IndexFilePage.internal.injEq, f.valueAt_eq]
  refine ⟨⟨_, rfl⟩, ?_⟩
  have h2 : 2 ≤ sizeOf s y := by omega
  rcases h.found.page with ⟨rfl, rfl⟩ | ⟨rfl, rfl⟩
  · rw [if_neg (Ne.symm hlr)]
    cases N with
    | LeafPage =>
      rw [wp_bind]
      refine wp_conseq (moveFirstToEndOf_leaf hrow hnd h.others ((hsize _).symm ▸ h2) ((hsize _).symm ▸ hfx)
        ((hsize _).symm ▸ hfy)) ?_
      rintro - s1 ⟨key, q, hq, hk, hrow1, hmv⟩
      have hq : s1.page f.er.2 = some (.leaf q) := hq
      simp only [wp_bind, wp_getLeaf, hq, Option.some.injEq, IndexFilePage.leaf.injEq, exists_eq_left', wp_require, hk]
      simpa only [wp_bind, wp_require] using hend s1 key hrow1 hmv
    | InternalPage =>
      simp only [low] at hx1 hy1
      obtain ⟨q, hq, -⟩ := hrow.1 (cell f.er) (by simp)
      have hq : s.page f.er.2 = some (.internal q) := by rw [← h0]; exact hq
      rw [sizeOf_internal hq] at h2
      obtain ⟨key, hkey⟩ : ∃ key, q.keyAt 1 = some key := by
        rw [InternalPage.keyAt, List.getElem?_eq_getElem (by omega)]
        exact ⟨_, rfl⟩
      simp only [wp_bind, wp_getInternal, setPins_page, h0, hq, Option.some.injEq, IndexFilePage.internal.injEq,
        exists_eq_left', wp_require, hkey, f.keyAt_eq]
      refine wp_conseq (moveFirstToEndOf_internal hrow hnd h.others rfl (by rw [setPins_page, h0]; exact hq) hkey
        ((hsize _).symm ▸ (by omega : 1 ≤ sizeOf s f.l.2)) ((hsize _).symm ▸ hfx) ((hsize _).symm ▸ hfy)) ?_
      rintro - s1 ⟨hrow1, hmv⟩
      simpa only [wp_bind, wp_require] using hend s1 key hrow1 hmv
  · rw [if_pos rfl]
    cases N with
    | LeafPage =>
      rw [wp_bind]
      refine wp_conseq (moveLastToFrontOf_leaf hrow hnd h.others ((hsize _).symm ▸ h2) ((hsize _).symm ▸ hfy)
        ((hsize _).symm ▸ hfx)) ?_
      rintro - s1 ⟨key, q, hq, hk, hrow1, hmv⟩
      have hq : s1.page f.er.2 = some (.leaf q) := hq
      simp only [wp_bind, wp_getLeaf, hq, Option.some.injEq, IndexFilePage.leaf.injEq, exists_eq_left', wp_require, hk]
      simpa only [wp_bind, wp_require] using hend s1 key hrow1 hmv
    | InternalPage =>
      simp only [low] at hx1 hy1
      obtain ⟨p, hp, -⟩ := hrow.1 f.l (by simp)
      have hp : s.page f.l.2 = some (.internal p) := by rw [← h0]; exact hp
      obtain ⟨key, hkey⟩ : ∃ key, p.keyAt (p.getSize - 1) = some key := by
        rw [sizeOf_internal hp] at h2
        rw [InternalPage.keyAt, InternalPage.getSize, List.getElem?_eq_getElem (by omega)]
        exact ⟨_, rfl⟩
      simp only [wp_bind, wp_getInternal, setPins_page, h0, hp, Option.some.injEq, IndexFilePage.internal.injEq,
        exists_eq_left', wp_require, hkey, f.keyAt_eq]
      refine wp_conseq (moveLastToFrontOf_internal hrow hnd h.others rfl (by rw [setPins_page, h0]; exact hp) hkey
        ((hsize _).symm ▸ h2) ((hsize _).symm ▸ (by omega : 1 ≤ sizeOf s f.er.2)) ((hsize _).symm ▸ hfy)
        ((hsize _).symm ▸ hfx)) ?_
      rintro - s1 ⟨hrow1, hmv⟩
      simpa only [wp_bind, wp_require] using hend s1 key hrow1 hmv

/-! ## After the walk on from the parent -/

section Up
variable {s2 s3 s' : IndexStore K V} {used free : List Nat} {hd : IndexFileHeader} {b b' : Bool} {c : List Nat × Option Nat}

/-- The level that is left of the row when two of its pages are merged. -/
abbrev merged (f : Family s L L') : Level K := f.A ++ f.l :: (f.Y.map cell ++ below s f.B')

/-- What the walk on from the parent discards is above the row. -/
theorem discarded_above {Lm : Level K} (hS : Shrunk .InternalPage s2 s3 used L' Ls es Lm f.m.2 b c) :
    ∀ z ∈ c.1, z ∈ allIds (L' :: Ls) := by
  obtain ⟨pages, -, hp⟩ := hS.result
  intro z hz
  rw [allIds, List.flatMap_cons]
  exact hp.subset (List.mem_append_right _ hz)

/-- The parent is unpinned, and deleted if the walk has left it nothing. -/
theorem Short.release (h : f.Short N Ls es M x y) (hS : Shrunk .InternalPage s2 s3 used L' Ls [] f.merged f.m.2 b c)
    (hpins : s2.pins = Function.update (Function.update s.pins f.m.2 (s.pins f.m.2 + 1)) y (s.pins y + 1))
    (hm : f.m.2 ∈ used) {R : IndexStore K V → Prop}
    (hR : ∀ t, t.pins = Function.update s3.pins f.m.2 (s.pins f.m.2) → t.member = s3.member →
      (∀ z, z ≠ 0 → (b = true → z ≠ f.m.2) → t.page z = s3.page z) →
      (∃ used' free' h', Alloc t used' free' h' ∧ used.Perm (c.1.filter (s.pins · = 0) ++ used')) → R t) :
    ∃ p, s3.page f.m.2 = some (.internal p) ∧ p.pageID = f.m.2 ∧ 0 < s3.pins f.m.2 ∧
      if b = true then wp exec (deleteIndexPage f.m.2) (fun _ => R) (s3.setPins f.m.2 (s3.pins f.m.2 - 1))
      else R (s3.setPins f.m.2 (s3.pins f.m.2 - 1)) := by
  obtain ⟨hmL, -, -, -, hml, hmr, -, hmu, -⟩ := f.apart h.nodup
  obtain ⟨-, hyL, -⟩ := h.mem
  have hdisj := (List.nodup_append.1 (List.nodup_append.1 h.nodup).2.1).2.2
  obtain ⟨p, hp, hid⟩ := hS.kind
  have hym : f.m.2 ≠ y := by
    rintro hy
    exact hdisj y hyL f.m.2 (List.mem_append_left _ hmL) hy.symm
  have hc : c.1.filter (Function.update s2.pins f.m.2 (s.pins f.m.2) · = 0) = c.1.filter (s.pins · = 0) := by
    refine List.filter_congr fun z hz => ?_
    have hzy : z ≠ y := by
      rintro rfl
      exact hdisj z hyL z (discarded_above hS z hz) rfl
    rcases eq_or_ne z f.m.2 with rfl | hzm
    · simp
    · simp [hpins, hzm, hzy]
  refine ⟨p, hp, hid, hS.release (n := s.pins f.m.2) hm hmu (by simp [hpins, hym]) fun t h1 h2 h3 h4 => hR t h1 h2 h3 ?_⟩
  rwa [hc] at h4

/-- Both levels of changes together, once the merged page is given back too. -/
theorem Short.finish (h : f.Short N Ls es M x y) (hmv : f.Moves N s2 (fun _ => Fits N s False) f.Y es M)
    (hS : Shrunk .InternalPage s2 s3 used L' Ls [] f.merged f.m.2 b c) (ha : Alloc s used free hd)
    (hused : ∀ z ∈ kidIds N M ++ (ids L ++ allIds (L' :: Ls)), z ∈ used)
    (hside : x = f.l.2 ∧ b' = false ∨ x = f.er.2 ∧ b' = true)
    (hpage : ∀ z, z ≠ 0 → (b = true → z ≠ f.m.2) → (b' = false → z ≠ f.er.2) → s'.page z = s3.page z)
    (hm : s'.member = s3.member) (hpins : s'.pins = pinned s c.2)
    (halloc : ∃ used' free' h', Alloc s' used' free' h' ∧
      used.Perm ((if b' then c.1 else f.er.2 :: c.1).filter (s.pins · = 0) ++ used')) :
    Shrunk N s s' used L (L' :: Ls) es M x b' (f.er.2 :: c.1, c.2) := by
  obtain ⟨hmL, hl, hr, hlr, hml, hmr, hmk, hmu, hk⟩ := f.apart h.nodup
  have hnd := (List.nodup_append.1 h.nodup).2.1
  have hdisj := (List.nodup_append.1 hnd).2.2
  have hcup := discarded_above hS
  have hx := h.mem.1
  have hsub := f.ids_sub (Z := f.Y) fun e he => List.mem_map_of_mem (List.mem_cons_of_mem _ he)
  have h0 : ∀ z ∈ kidIds N M ++ (ids L ++ allIds (L' :: Ls)), z ≠ 0 := fun z hz => ha.ne_zero (hused z hz)
  have hmup : f.m.2 ∈ allIds (L' :: Ls) := List.mem_append_left _ hmL
  -- pages of the row and below keep their content on the way up
  have hrow3 : ∀ z ∈ ids L, SameBody s2 s3 z := by
    intro z hz
    apply hS.changes.body z
    rw [List.mem_cons, not_or]
    exact ⟨h0 z (by simp [hz]), fun hz' => hdisj z hz z hz' rfl⟩
  have hkid3 : ∀ z ∈ kidIds N M, s3.page z = s2.page z := by
    intro z hz
    have hzn : z ∉ ids L ++ allIds (L' :: Ls) := fun hz' => hk z hz' hz
    rw [List.mem_append, not_or] at hzn
    apply hS.changes.page z (fun hz' => hzn.1 (hsub z hz'))
    rw [List.mem_cons, not_or]
    exact ⟨h0 z (List.mem_append_left _ hz), hzn.2⟩
  have hkid : ∀ z ∈ kidIds N M, s'.page z = s3.page z := by
    intro z hz
    refine hpage z (h0 z (List.mem_append_left _ hz)) ?_ ?_
    · rintro - rfl
      exact hmk hz
    · rintro - rfl
      exact hk _ (List.mem_append_left _ hr) hz
  obtain ⟨pages, ⟨Us, habove, rfl⟩, hperm⟩ := hS.result
  refine ⟨?_, hpins, fun a ha => ?_, ?_, ?_, ?_⟩
  · obtain ⟨used', free', h', ha', hp'⟩ := halloc
    refine ⟨if b' then c.1 else f.er.2 :: c.1, ?_, ?_, used', free', h', ha', hp'⟩
    · have hxc : x ∉ c.1 := fun hxc => hdisj x hx x (hcup x hxc) rfl
      rcases hside with ⟨rfl, rfl⟩ | ⟨rfl, rfl⟩
      · simpa [hlr] using hxc
      · simpa using hxc
    · rcases hside with ⟨rfl, rfl⟩ | ⟨rfl, rfl⟩ <;> simp
  · rw [allIds, List.flatMap_cons]
    exact List.mem_append_right _ (hS.borrowed a ha)
  · have hout : ∀ z, z ∉ 0 :: (ids L ++ allIds (L' :: Ls)) → s'.page z = s2.page z ∧ z ≠ f.l.2 ∧
        z ≠ f.er.2 ∧ z ≠ f.m.2 := by
      intro z hz
      rw [List.mem_cons, List.mem_append, not_or, not_or] at hz
      have hzm : z ≠ f.m.2 := by
        rintro rfl
        exact hz.2.2 hmup
      have hzr : z ≠ f.er.2 := by
        rintro rfl
        exact hz.2.1 hr
      have hzl : z ≠ f.l.2 := by
        rintro rfl
        exact hz.2.1 hl
      rw [hpage z hz.1 (fun _ => hzm) fun _ => hzr]
      refine ⟨hS.changes.page z (fun hz' => hz.2.1 (hsub z hz')) ?_, hzl, hzr, hzm⟩
      rw [List.mem_cons, not_or]
      exact ⟨hz.1, hz.2.2⟩
    refine ⟨fun z hz hzr => ?_, fun z hzr => ?_, ?_, ?_⟩
    · obtain ⟨h1, h2, h3, h4⟩ := hout z hzr
      rw [h1, hmv.page z h2 h3 h4 hz]
    · obtain ⟨h1, h2, h3, h4⟩ := hout z hzr
      refine SameBody.trans ?_ (.of_eq h1)
      by_cases hz : z ∈ kidIds N M
      · exact hmv.body z hz
      · exact .of_eq (hmv.page z h2 h3 h4 hz)
    · rw [hm, hS.changes.leafMax, hmv.member]
    · rw [hm, hS.changes.internalMax, hmv.member]
  · have hkind := (hmv.kind x (hside.imp And.left And.left)).congr (hrow3 x hx)
    refine hkind.congr (.of_eq (hpage x (h0 x (by simp [hx])) ?_ ?_))
    · rintro - rfl
      exact hdisj _ hx _ hmup rfl
    · rcases hside with ⟨rfl, -⟩ | ⟨-, rfl⟩
      · exact fun _ => hlr
      · simp
  · have hl3 : s3.member.leafMaxSize = s.member.leafMaxSize := by rw [hS.changes.leafMax, hmv.member]
    have hi3 : s3.member.internalMaxSize = s.member.internalMaxSize := by rw [hS.changes.internalMax, hmv.member]
    have hrow := (hmv.row.congr (fun z hz => hrow3 z (hsub z hz)) hS.changes.leafMax hS.changes.internalMax
      fun z hz a hpa => hpa.congr (hkid3 z hz)).mono fun z _ size hs =>
        (show Fits _ s3 (Us = []) size from hs.congr hl3 hi3)
    have hids : ids L = ids f.A ++ f.l.2 :: f.er.2 :: ids f.B := f.ids_eq
    have hmids : ids f.merged = ids f.A ++ f.l.2 :: ids f.B := by
      rw [f.right]
      simp
    have hndu : (allIds Us ++ c.1).Nodup := by
      rw [hperm.nodup_iff]
      simpa [allIds] using (List.nodup_append.1 hnd).2.1
    refine ⟨_, (Result.up hrow habove).congr (fun z hz => ?_) hkid hm, ?_⟩
    · rcases List.mem_append.1 hz with hz | hz
      · have hzL := hsub z hz
        refine hpage z (h0 z (by simp [hzL])) ?_ ?_
        · rintro - rfl
          exact hdisj _ hzL _ hmup rfl
        · rintro - rfl
          have hndL := (List.nodup_append.1 hnd).1
          rw [hids] at hndL
          rw [hmids] at hz
          grind [List.nodup_append]
      · have hzu : z ∈ allIds (L' :: Ls) := by
          rw [allIds, List.flatMap_cons]
          exact hperm.subset (List.mem_append_left _ hz)
        refine hpage z (h0 z (List.mem_append_right _ (List.mem_append_right _ hzu))) ?_ ?_
        · rintro rfl rfl
          obtain ⟨D, -, hcD, -⟩ := hS.discards
          exact (List.nodup_append.1 hndu).2.2 _ hz _ (hcD.symm.subset (by simp)) rfl
        · rintro - rfl
          exact hdisj _ hr _ hzu rfl
    · have hup : allIds (L' :: Ls) = ids L' ++ allIds Ls := List.flatMap_cons ..
      rw [hids, hmids, hup]
      have h1 := hperm.append_left (ids f.A ++ f.l.2 :: f.er.2 :: ids f.B)
      refine List.Perm.trans ?_ h1
      rw [List.perm_iff_count]
      intro z
      simp only [List.count_append, List.count_cons]
      omega

theorem Short.parent (h : f.Short N Ls es M x y) :
    f.p.pageID = f.m.2 ∧ f.p.maxSize = internalMax s ∧ InternalFits s (Ls = []) f.p.array.length := by
  have hm : f.m ∈ f.A' ++ f.m :: f.B' := by simp
  rw [← f.above] at hm
  obtain ⟨p, hp, hid, hmax, hfit, -⟩ := h.above.2.1 f.m hm
  obtain rfl : p = f.p := by simpa [hp] using f.page
  exact ⟨hid, hmax, hfit⟩

theorem Short.climb_eq (h : f.Short N Ls es M x y) (fuel : Nat) : climb s (fuel + 1) x (sizeOf s x) =
    if sizeOf s y + sizeOf s x < capacity N s then
      (f.er.2 :: (climb s fuel f.m.2 (f.p.getSize - 1)).1, (climb s fuel f.m.2 (f.p.getSize - 1)).2)
    else ([], some f.m.2) := by
  have hmin : ¬ capacity N s / 2 ≤ sizeOf s x := not_le.2 h.small
  simp only [climb, h.node, BPlusTreePage.getMinSize, hmin, if_false, f.page, h.found.neighbour]

/-- What moving entries between the siblings leaves of the allocation. -/
theorem Short.alloc (h : f.Short N Ls es M x y) {Z : List (K × Nat)} {fits : Nat → Nat → Prop}
    (hmv : f.Moves N s2 fits Z es M) (ha : Alloc s used free hd)
    (hused : ∀ z ∈ kidIds N M ++ (ids L ++ allIds (L' :: Ls)), z ∈ used) {s' : IndexStore K V} (hp : s'.page = s2.page)
    (hm : s'.member = s2.member) (hpins : ∀ z, z ≠ f.m.2 → z ≠ y → s'.pins z = s.pins z) : Alloc s' used free hd := by
  obtain ⟨hmL, hl, hr, -⟩ := f.apart h.nodup
  have hmup : f.m.2 ∈ allIds (L' :: Ls) := List.mem_append_left _ hmL
  have hne : ∀ z, z ∉ used → z ≠ f.m.2 ∧ z ≠ f.l.2 ∧ z ≠ f.er.2 ∧ z ≠ y ∧ z ∉ kidIds N M := by
    intro z hz
    refine ⟨?_, ?_, ?_, ?_, fun hz' => hz (hused z (List.mem_append_left _ hz'))⟩
    · rintro rfl
      exact hz (hused _ (List.mem_append_right _ (List.mem_append_right _ hmup)))
    · rintro rfl
      exact hz (hused _ (by simp [hl]))
    · rintro rfl
      exact hz (hused _ (by simp [hr]))
    · rintro rfl
      exact hz (hused _ (by simp [h.mem.2.1]))
  refine ha.frame (by rw [hm, hmv.member]) (fun z hz => ?_) fun z _ hz => hpins z (hne z hz).1 (hne z hz).2.2.2.1
  obtain ⟨h1, h2, h3, -, h5⟩ := hne z hz
  rw [hp, hmv.page z h2 h3 h1 h5]

/-- The page borrows an entry: the tree has its old shape. -/
theorem Short.borrow (h : f.Short N Ls es M x y) (hfit : ¬ sizeOf s y + sizeOf s x < capacity N s)
    {key : K} {fuel : Nat}
    (hmv : f.Moves N s2 (fun _ => Fits N s False) ((key, f.er.2) :: f.Y) es M) (ha : Alloc s used free hd)
    (hused : ∀ z ∈ kidIds N M ++ (ids L ++ allIds (L' :: Ls)), z ∈ used) (hp : s'.page = s2.page)
    (hm : s'.member = s2.member) (hpins : s'.pins = Function.update s.pins f.m.2 (s.pins f.m.2 + 1)) :
    Shrunk N s s' used L (L' :: Ls) es M x false (climb s (fuel + 1) x (sizeOf s x)) := by
  rw [h.climb_eq, if_neg hfit]
  obtain ⟨hmL, hl, hr, hlr, hml, hmr, hmk, hmu, hk⟩ := f.apart h.nodup
  obtain ⟨-, -, hpf⟩ := h.parent
  have hmup : f.m.2 ∈ allIds (L' :: Ls) := List.mem_append_left _ hmL
  have hZ : ∀ e ∈ (key, f.er.2) :: f.Y, e.2 ∈ (f.er :: f.Y).map (·.2) := by
    intro e he
    rw [List.mem_cons] at he
    rcases he with rfl | he
    · simp
    · exact List.mem_map_of_mem (List.mem_cons_of_mem _ he)
  have hlen : (f.X ++ f.el :: (key, f.er.2) :: f.Y).length = f.p.array.length := by simp [f.array]
  obtain ⟨hrow', habove⟩ : Row .InternalPage s2 (fun _ => InternalFits s2 (Ls = [])) L' [] _ ∧ Above s2 L' Ls :=
    hmv.above h.above h.nodup
    (fun z _ _ size hs => by simpa [InternalFits, internalMax, hmv.member] using hs)
    (by rw [hlen]; simpa [InternalFits, internalMax, hmv.member] using hpf) hZ []
  have hab2 : Above s2 (f.A ++ f.l :: (((key, f.er.2) :: f.Y).map cell ++ below s f.B')) (L' :: Ls) :=
    ⟨hrow'.2, hrow'.1, habove⟩
  have hids : ids (f.A ++ f.l :: (((key, f.er.2) :: f.Y).map cell ++ below s f.B')) = ids L := by
    rw [f.ids_eq, f.right]
    simp [cell]
  have hpage : ∀ z, z ∉ 0 :: (ids L ++ allIds (L' :: Ls)) → z ∉ kidIds N M → s'.page z = s.page z := by
    intro z hz hzk
    rw [List.mem_cons, List.mem_append, not_or, not_or] at hz
    rw [hp]
    refine hmv.page z ?_ ?_ ?_ hzk
    · rintro rfl
      exact hz.2.1 hl
    · rintro rfl
      exact hz.2.1 hr
    · rintro rfl
      exact hz.2.2 hmup
  -- nothing dies, and the walk ends here
  refine ⟨⟨[], by simp, by simp, used, free, hd, ?_, by simp⟩, hpins, ?_, ⟨?_, ?_, ?_, ?_⟩, ?_,
    ids L ++ allIds (L' :: Ls), ?_, by simp⟩
  · exact h.alloc hmv ha hused hp hm fun z hz _ => by simp [hpins, hz]
  · rintro a ha
    obtain rfl : f.m.2 = a := by simpa using ha
    exact hmup
  · exact fun z hz hzr => hpage z hzr hz
  · intro z hzr
    by_cases hz : z ∈ kidIds N M
    · exact (hmv.body z hz).trans (.of_eq (by rw [hp]))
    · exact .of_eq (hpage z hzr hz)
  · rw [hm, hmv.member]
  · rw [hm, hmv.member]
  · refine (hmv.kind x ?_).congr (.of_eq (by rw [hp]))
    exact h.found.page.imp And.left And.left
  · rw [← hids]
    refine (Result.up (hmv.row.mono fun z _ size hs => ?_) hab2).congr (fun _ _ => by rw [hp]) (fun _ _ => by rw [hp]) hm
    exact Fits.congr hs (by rw [hmv.member]) (by rw [hmv.member])

/-- The parent's level after a merge: the parent lacks an entry. -/
theorem Short.parentRow (h : f.Short N Ls es M x y) (hmv : f.Moves N s2 (fun _ => Fits N s False) f.Y es M) :
    Row .InternalPage s2 (Lacking .InternalPage s2 Ls f.m.2) L' [] f.merged ∧ Above s2 L' Ls ∧
      sizeOf s2 f.m.2 = f.p.getSize - 1 := by
  obtain ⟨-, -, hpf⟩ := h.parent
  have hlen : (f.X ++ f.el :: f.Y).length + 1 = f.p.array.length := by
    simp [f.array]
    omega
  obtain ⟨hrow, habove⟩ : Row .InternalPage s2 (Lacking .InternalPage s2 Ls f.m.2) L' _ _ ∧ Above s2 L' Ls :=
    hmv.above h.above h.nodup
    (fun z _ hzm size hs => by
      rw [Lacking, if_neg hzm]
      simpa [Fits, low, capacity, InternalFits, internalMax, hmv.member] using hs)
    (by
      rw [Lacking, if_pos rfl, hlen]
      simpa [Fits, low, capacity, InternalFits, internalMax, hmv.member] using hpf)
    (fun e he => List.mem_map_of_mem (List.mem_cons_of_mem _ he)) []
  refine ⟨hrow, habove, ?_⟩
  rw [sizeOf_internal hmv.parent, InternalPage.getSize, ← hlen, Nat.add_sub_cancel]

/-- The walk on from the parent is the one foretold. -/
theorem Short.climb_up (h : f.Short N Ls es M x y) (hmv : f.Moves N s2 (fun _ => Fits N s False) f.Y es M)
    (fuel : Nat) :
    climb s2 fuel f.m.2 (sizeOf s2 f.m.2) = climb s fuel f.m.2 (f.p.getSize - 1) := by
  obtain ⟨hmL, hl, hr, -, -, -, -, -, hk⟩ := f.apart h.nodup
  have hnd := (List.nodup_append.1 h.nodup).2.1
  have hdisj := (List.nodup_append.1 hnd).2.2
  have hpage : ∀ z ∈ allIds (L' :: Ls), z ≠ f.m.2 → s2.page z = s.page z := by
    intro z hz hzm
    refine hmv.page z ?_ ?_ hzm (hk z (List.mem_append_right _ hz))
    · rintro rfl
      exact hdisj _ hl _ hz rfl
    · rintro rfl
      exact hdisj _ hr _ hz rfl
  rw [h.parentRow hmv |>.2.2]
  refine climb_congr Ls h.above.2.2 hmL (by simpa [allIds] using (List.nodup_append.1 hnd).2.1) ?_ (fun z hz hzm => ?_)
    fun z hz => ?_
  · rw [hmv.parent, f.page]
    rfl
  · rw [sizeOf, sizeOf, hpage z (List.mem_append_left _ hz) hzm]
  · apply hpage z (by rw [allIds, List.flatMap_cons]; exact List.mem_append_right _ hz)
    rintro rfl
    exact (f.apart h.nodup).2.2.2.2.2.2.2.1 hz

theorem Short.y_pins (h : f.Short N Ls es M x y)
    (hS : Shrunk .InternalPage s2 s3 used L' Ls [] f.merged f.m.2 b c)
    (hpins : s2.pins = Function.update (Function.update s.pins f.m.2 (s.pins f.m.2 + 1)) y (s.pins y + 1)) :
    s3.pins y = s.pins y + 1 ∧
      Function.update (Function.update s3.pins f.m.2 (s.pins f.m.2)) y (s.pins y) = pinned s c.2 := by
  obtain ⟨hmL, -, -, -, -, -, -, hmu, -⟩ := f.apart h.nodup
  have hdisj := (List.nodup_append.1 (List.nodup_append.1 h.nodup).2.1).2.2
  have hup : ∀ a ∈ c.2, y ≠ a ∧ f.m.2 ≠ a := by
    intro a ha
    have ha' := hS.borrowed a ha
    refine ⟨fun hy => ?_, ?_⟩
    · exact hdisj y h.mem.2.1 a (by rw [allIds, List.flatMap_cons]; exact List.mem_append_right _ ha') hy
    · rintro rfl
      exact hmu ha'
  refine ⟨by rw [hS.pins, pinned_eq fun a ha => (hup a ha).1, hpins, Function.update_self], ?_⟩
  rw [hS.pins]
  funext z
  rcases eq_or_ne z y with rfl | hzy
  · rw [Function.update_self, pinned_eq fun a ha => (hup a ha).1]
  · rw [Function.update_of_ne hzy]
    rcases eq_or_ne z f.m.2 with rfl | hzm
    · rw [Function.update_self, pinned_eq fun a ha => (hup a ha).2]
    · rw [Function.update_of_ne hzm]
      cases hc : c.2 with
      | none => simp [pinned, hpins, hzy, hzm]
      | some a =>
        obtain ⟨hya, hma⟩ := hup a hc
        rcases eq_or_ne z a with rfl | hza
        · simp [pinned, hpins, hzy, hzm]
        · simp [pinned, hpins, hzy, hzm, hza]

/-- The merged page is given back, and deleted here if it was fetched here. -/
theorem Short.tail {t : IndexStore K V} (h : f.Short N Ls es M x y)
    (hmv : f.Moves N s2 (fun _ => Fits N s False) f.Y es M)
    (hS : Shrunk .InternalPage s2 s3 used L' Ls [] f.merged f.m.2 b c) (ha : Alloc s used free hd)
    (hused : ∀ z ∈ kidIds N M ++ (ids L ++ allIds (L' :: Ls)), z ∈ used)
    (hpins : s2.pins = Function.update (Function.update s.pins f.m.2 (s.pins f.m.2 + 1)) y (s.pins y + 1))
    (htp : t.pins = Function.update s3.pins f.m.2 (s.pins f.m.2)) (htm : t.member = s3.member)
    (htpage : ∀ z, z ≠ 0 → (b = true → z ≠ f.m.2) → t.page z = s3.page z)
    (hta : ∃ used' free' h', Alloc t used' free' h' ∧ used.Perm (c.1.filter (s.pins · = 0) ++ used')) :
    wp exec (if f.l.2 ≠ y then do
        let n ← getNode f.er.2
        unpinPage n.pageID true
        let _ ← deleteIndexPage n.pageID
        pure false
      else do
        unpinPage (← getNode f.l.2).pageID true
        pure true) (fun b' s' => Shrunk N s s' used L (L' :: Ls) es M x b' (f.er.2 :: c.1, c.2)) t := by
  obtain ⟨hmL, hl, hr, hlr, hml, hmr, hmk, hmu, hk⟩ := f.apart h.nodup
  have hdisj := (List.nodup_append.1 (List.nodup_append.1 h.nodup).2.1).2.2
  obtain ⟨hy3, hend⟩ := h.y_pins hS hpins
  have hym : y ≠ f.m.2 := by
    rintro rfl
    exact hdisj _ h.mem.2.1 _ (List.mem_append_left _ hmL) rfl
  have hty : t.pins y = s.pins y + 1 := by rw [htp, Function.update_of_ne hym, hy3]
  have hpz : Function.update t.pins y (t.pins y - 1) = pinned s c.2 := by
    rw [hty, Nat.add_sub_cancel, htp, hend]
  -- both pages of the row are as the move left them
  have hkind : ∀ z, z = f.l.2 ∨ z = f.er.2 → IsKind N t z := by
    intro z hz
    have hzL : z ∈ ids L := by rcases hz with rfl | rfl <;> assumption
    have hz0 : z ≠ 0 := ha.ne_zero (hused z (by simp [hzL]))
    have hzm : z ≠ f.m.2 := by rcases hz with rfl | rfl <;> [exact Ne.symm hml; exact Ne.symm hmr]
    refine ((hmv.kind z hz).congr (hS.changes.body z ?_)).congr (.of_eq (htpage z hz0 fun _ => hzm))
    rw [List.mem_cons, not_or]
    exact ⟨hz0, fun hz' => hdisj z hzL z hz' rfl⟩
  obtain ⟨used2, free2, h2, ha2, hperm2⟩ := hta
  have hframe : ∀ z ∈ used2, Alloc (t.setPins z (t.pins z - 1)) used2 free2 h2 := by
    intro z hz
    refine ha2.frame rfl (fun _ _ => rfl) fun w _ hw => ?_
    have : w ≠ z := by
      rintro rfl
      exact hw hz
    simp [this]
  have hstays : ∀ z ∈ ids L, z ∈ used2 := by
    intro z hz
    have := hperm2.subset (hused z (by simp [hz]))
    rw [List.mem_append, List.mem_filter] at this
    exact this.resolve_left fun hzc => hdisj z hz z (discarded_above hS z hzc.1) rfl
  rcases h.found.page with ⟨rfl, rfl⟩ | ⟨rfl, rfl⟩
  · rw [if_pos hlr]
    obtain ⟨n, hn, hid⟩ := (hkind f.er.2 (.inr rfl)).node
    simp only [wp_bind, wp_getNode, hn, Option.some.injEq, exists_eq_left', hid, wp_unpinPage, wp_pure]
    refine ⟨by omega, wp_conseq (deleteIndexPage_spec (hframe _ (hstays _ hr)) (hstays _ hr) ⟨n, hn⟩) ?_⟩
    rintro - s' ⟨hp', hm', hpage', used3, free3, h3, ha3, hperm3⟩
    refine h.finish hmv hS ha hused (.inl ⟨rfl, rfl⟩) (fun z h0 hzm hzr => ?_) (hm'.trans htm) (hp'.trans hpz)
      ⟨used3, free3, h3, ha3, ?_⟩
    · rw [hpage' z h0 (hzr rfl), setPins_page, htpage z h0 hzm]
    · have hlast : (t.setPins f.er.2 (t.pins f.er.2 - 1)).pins f.er.2 = s.pins f.er.2 := by
        rw [setPins_pins, Function.update_self, hty, Nat.add_sub_cancel]
      rw [hlast] at hperm3
      have h4 := hperm2.trans (hperm3.append_left _)
      rw [← List.append_assoc] at h4
      refine h4.trans (List.Perm.append_right _ (List.perm_append_comm.trans ?_))
      by_cases hz : s.pins f.er.2 = 0 <;> simp [hz]
  · rw [if_neg (by simp)]
    obtain ⟨n, hn, hid⟩ := (hkind f.l.2 (.inl rfl)).node
    simp only [wp_bind, wp_getNode, hn, Option.some.injEq, exists_eq_left', hid, wp_unpinPage, wp_pure]
    refine ⟨by omega, h.finish hmv hS ha hused (.inr ⟨rfl, rfl⟩) (fun z h0 hzm _ => ?_) htm hpz
      ⟨used2, free2, h2, hframe _ (hstays _ hl), hperm2⟩⟩
    rw [setPins_page, htpage z h0 hzm]

/-- One step of the walk up. -/
theorem Short.step {fuel : Nat} (h : f.Short N Ls es M x y) (ha : Alloc s used free hd)
    (hused : ∀ z ∈ kidIds N M ++ (ids L ++ allIds (L' :: Ls)), z ∈ used)
    (ih : ∀ s2 : IndexStore K V, Row .InternalPage s2 (Lacking .InternalPage s2 Ls f.m.2) L' [] f.merged →
      Above s2 L' Ls → Alloc s2 used free hd → sizeOf s2 f.m.2 < capacity .InternalPage s2 / 2 →
      wp exec (BPlusTree.coalesceOrRedistribute fuel .InternalPage f.m.2)
      (fun b s' => Shrunk .InternalPage s2 s' used L' Ls
        [] f.merged f.m.2 b (climb s2 fuel f.m.2 (sizeOf s2 f.m.2))) s2) :
    wp exec (BPlusTree.coalesceOrRedistribute (fuel + 1) N x)
      (fun b s' => Shrunk N s s' used L (L' :: Ls) es M x b (climb s (fuel + 1) x (sizeOf s x))) s := by
  obtain ⟨hmL, hl, hr, hlr, hml, hmr, hmk, hmu, hk⟩ := f.apart h.nodup
  obtain ⟨hpid, hpmax, -⟩ := h.parent
  obtain ⟨i, j, hi, hj, hv⟩ := h.found.index
  obtain ⟨a, hy⟩ := h.sibling
  obtain ⟨pg, hpg, -⟩ := Option.bind_eq_some_iff.1 hy
  have hdisj := (List.nodup_append.1 (List.nodup_append.1 h.nodup).2.1).2.2
  have hym : y ≠ f.m.2 := by
    rintro rfl
    exact hdisj _ h.mem.2.1 _ (List.mem_append_left _ hmL) rfl
  simp only [BPlusTree.coalesceOrRedistribute, wp_bind, wp_getNode, h.node, Option.some.injEq, exists_eq_left',
    wp_fetchPage, wp_getInternal, setPins_page, f.page, IndexFilePage.internal.injEq, wp_require, hi, hj, hv, hpg,
    Option.bind_some, wp_ite, setPins_pins, Function.update_of_ne hym]
  rw [hpg, Option.bind_some] at hy
  simp only [hy, Option.some.injEq, exists_eq_left']
  refine ⟨⟨_, rfl⟩, ⟨_, rfl⟩, ?_⟩
  -- both pages fit one, or an entry is borrowed
  by_cases hfit : sizeOf s y + sizeOf s x < capacity N s
  · rw [if_pos hfit, h.climb_eq, if_pos hfit]
    refine h.coalesce hfit ((s.setPins f.m.2 (s.pins f.m.2 + 1)).setPins y (s.pins y + 1)) rfl rfl fun s2 h2 hmv => ?_
    obtain ⟨hrow, habove, hsize⟩ := h.parentRow hmv
    have ha2 := h.alloc hmv ha hused rfl rfl fun z hzm hzy => by simp [h2, hzm, hzy]
    have hcap : capacity .InternalPage s2 = f.p.maxSize := by
      rw [hpmax, capacity, internalMax, internalMax, hmv.member]
    -- the parent has lost an entry, and the walk goes on if it is too small
    have hS : wp exec (if (f.X ++ f.el :: f.Y).length < f.p.maxSize / 2 then
        BPlusTree.coalesceOrRedistribute fuel .InternalPage f.m.2 else pure false) (fun b s3 =>
        Shrunk .InternalPage s2 s3 used L' Ls [] f.merged f.m.2 b (climb s fuel f.m.2 (f.p.getSize - 1))) s2 := by
      have hlen : (f.X ++ f.el :: f.Y).length = sizeOf s2 f.m.2 := by rw [sizeOf_internal hmv.parent]
      rw [hlen, ← hcap, ← h.climb_up hmv]
      by_cases hlt : sizeOf s2 f.m.2 < capacity .InternalPage s2 / 2
      · rw [if_pos hlt]
        exact ih s2 hrow habove ha2 hlt
      · rw [if_neg hlt, wp_pure]
        exact Shrunk.large hrow hmL habove ha2 (by simp [low, capacity, internalMax]) (not_lt.1 hlt)
    -- back from the walk, the pins and the dead page are given up
    refine wp_conseq hS fun b s3 hS => ?_
    have hmused : f.m.2 ∈ used := hused _ (List.mem_append_right _ (List.mem_append_right _ (List.mem_append_left _ hmL)))
    obtain ⟨p, hp, hid, hpos, hrel⟩ := h.release hS h2 hmused fun t h3 h4 h5 h6 => h.tail hmv hS ha hused h2 h3 h4 h5 h6
    simp only [hp, Option.some.injEq, IndexFilePage.internal.injEq, exists_eq_left', hid, wp_unpinPage]
    refine ⟨hpos, ?_⟩
    simpa only [wp_ite, wp_bind, wp_getNode, wp_unpinPage] using hrel
  · rw [if_neg hfit]
    refine h.redistribute hfit ((s.setPins f.m.2 (s.pins f.m.2 + 1)).setPins y (s.pins y + 1)) rfl rfl
      fun s2 key h2 hmv => ?_
    have hkind : IsKind N s2 y := hmv.kind y (h.found.page.symm.imp And.right And.right)
    obtain ⟨n, hn, hid⟩ := hkind.node
    simp only [hn, Option.some.injEq, exists_eq_left', hid, wp_unpinPage, setPins_page, hmv.parent,
      IndexFilePage.internal.injEq, hpid, setPins_pins, Function.update_of_ne (Ne.symm hym), wp_pure, h2,
      Function.update_of_ne hym, Function.update_self]
    refine ⟨by omega, by omega, h.borrow hfit hmv ha hused rfl rfl ?_⟩
    funext z
    rcases eq_or_ne z f.m.2 with rfl | hzm
    · simp
    · rcases eq_or_ne z y with rfl | hzy
      · simp [hzm]
      · simp [h2, hzm, hzy]

end Up

end Family

/-! ## The walk up -/

section Walk
variable [Inhabited K] {s : IndexStore K V} {used free : List Nat} {h : IndexFileHeader}

/-- Merges and borrowings end in a tree with the same entries. -/
theorem coalesceOrRedistribute_spec (Ls : List (Level K)) :
    ∀ {N : NodeType} {s : IndexStore K V} {used free h fuel L M es x},
    Ls.length < fuel → Row N s (Lacking N s Ls x) L es M → x ∈ ids L → Above s L Ls → Alloc s used free h →
    2 * low N ≤ capacity N s → sizeOf s x < capacity N s / 2 → (kidIds N M ++ (ids L ++ allIds Ls)).Nodup →
    (∀ z ∈ kidIds N M ++ (ids L ++ allIds Ls), z ∈ used) →
    wp exec (BPlusTree.coalesceOrRedistribute fuel N x)
      (fun b s' => Shrunk N s s' used L Ls es M x b (climb s fuel x (sizeOf s x))) s := by
  induction Ls with
  | nil =>
    intro N s used free h fuel L M es x hfuel hrow hx hab ha hcap hsmall hnd hused
    obtain ⟨fuel, rfl⟩ : ∃ f, fuel = f + 1 := ⟨fuel - 1, by omega⟩
    rw [show allIds ([] : List (Level K)) = [] from rfl, List.append_nil] at hnd hused
    exact coalesceOrRedistribute_root hrow hx hab ha hcap hsmall hnd hused
  | cons L' Ls ih =>
    intro N s used free h fuel L M es x hfuel hrow hx hab ha hcap hsmall hnd hused
    obtain ⟨fuel, rfl⟩ : ∃ f, fuel = f + 1 := ⟨fuel - 1, by omega⟩
    have hnd' := (List.nodup_append.1 hnd).2.1
    obtain ⟨f, y, hat⟩ := hab.family hx (List.nodup_append.1 hnd').1
    have hshort : f.Short N Ls es M x y := ⟨hat, hrow, hab, hnd, hcap, hsmall⟩
    have hmids : (ids f.merged).Sublist (ids L) := by
      rw [f.ids_eq, f.right]
      simp
    have hup : ids L' ++ allIds Ls = allIds (L' :: Ls) := List.flatMap_cons.symm
    refine hshort.step ha hused fun s2 hrow2 hab2 ha2 hsmall2 => ?_
    refine ih (by simpa using hfuel) hrow2 (f.apart hnd).1 hab2 ha2 (by simp [low, capacity, internalMax]) hsmall2 ?_ ?_
    · rw [hup]
      exact hnd'.sublist (hmids.append_right _)
    · rw [hup]
      intro z hz
      exact hused z (List.mem_append_right _ ((hmids.append_right _).subset hz))

end Walk

/-! ## The operation -/

/-- What the removal of a key discards, and through which page it borrows. -/
def removal (s : IndexStore K V) (fuel : Nat) (key : K) : List Nat × Option Nat :=
  match run exec (BPlusTree.findLeafPage fuel key false) s with
  | none => ([], none)
  | some (leaf, _) =>
    match s.page leaf with
    | some (.leaf p) => if (p.lookup key).isSome then climb s fuel leaf (p.getSize - 1) else ([], none)
    | _ => ([], none)

/-- The store after the removal of a key that was there. -/
def Removed [Inhabited K] (s s' : IndexStore K V) (es : List (K × V)) (orphans : List Nat) (key : K)
    (c : List Nat × Option Nat) : Prop :=
  s'.pins = pinned s c.2 ∧ s'.member.leafMaxSize = s.member.leafMaxSize ∧
  s'.member.internalMaxSize = s.member.internalMaxSize ∧
  ∃ pages es' used free h, Alloc s' used free h ∧ Holds s' pages es' ∧
    used.Perm (pages ++ (orphans ++ c.1.filter (s.pins · ≠ 0))) ∧
    ∀ k, toMap es' k = if k = key then none else toMap es k

section Operation
variable {s s1 : IndexStore K V} {used free orphans : List Nat} {h : IndexFileHeader} {A B : Level K} {Ls : List (Level K)}
variable {x fuel : Nat} {lo : WithBot K} {p : LeafPage K V} {key : K} {value : V}

theorem LeafPage.remove_absent (hk : toMap p.array key = none) : p.removeAndDeleteRecord key = (none, p) := by
  simp only [toMap, Option.map_eq_none_iff] at hk
  simp [LeafPage.removeAndDeleteRecord, hk]

theorem LeafPage.remove_present (hk : toMap p.array key = some value) :
    p.removeAndDeleteRecord key = (some value, { p with array := p.array.eraseP fun e => e.1 = key }) := by
  simp only [toMap, Option.map_eq_some_iff] at hk
  obtain ⟨e, he, rfl⟩ := hk
  simp [LeafPage.removeAndDeleteRecord, he]

theorem length_erase (hk : toMap p.array key = some value) :
    (p.array.eraseP fun e => e.1 = key).length + 1 = p.array.length := by
  obtain ⟨X, Y, hX, he, -⟩ := erase_split hk
  rw [he, hX]
  simp
  omega

/-- What the erasure does to the whole map. -/
theorem toMap_flat_erase {fits : Nat → Nat → Prop} (hl : LeafLevel s fits (A ++ (lo, x) :: B))
    (hp : s.page x = some (.leaf p)) (hlo : lo ≤ key) (hB : ∀ b ∈ B, (key : WithBot K) < b.1) (k : K) :
    toMap (flat (blocks s A ++ (lo, p.array.eraseP fun e => e.1 = key) :: blocks s B)) k =
      if k = key then none else toMap (contents s (A ++ (lo, x) :: B)) k := by
  have hord := blocks_at hl hp
  have hs := hord.sorted (lo, p.array) (by simp)
  split
  · next h =>
    subst h
    rw [(hord.shrink List.eraseP_sublist).toMap_flat hlo (bounds_blocks hB), toMap_erase hs, if_pos rfl]
  · next h =>
    rw [contents, blocks_append, blocks_cons, entries_eq (n := (lo, x)) hp]
    simp only [flat_append, flat_cons, toMap_append]
    rw [toMap_erase hs, if_neg h]

variable [Inhabited K]

/-- The leaf lacks the entry, and everything else is as it was. -/
theorem Tree.erase (ht : Tree s (A ++ (lo, x) :: B) Ls) (hp : s.page x = some (.leaf p))
    (hnd : (ids (A ++ (lo, x) :: B) ++ allIds Ls).Nodup) (hk : toMap p.array key = some value)
    (h1 : s1.page = Function.update s.page x (some (.leaf { p with array := p.array.eraseP fun e => e.1 = key })))
    (h1m : s1.member = s.member) :
    Row .LeafPage s1 (Lacking .LeafPage s1 Ls x) (A ++ (lo, x) :: B)
      (flat (blocks s A ++ (lo, p.array.eraseP fun e => e.1 = key) :: blocks s B)) [] ∧
        Above s1 (A ++ (lo, x) :: B) Ls ∧
      ∀ fuel, climb s1 fuel x (sizeOf s1 x) = climb s fuel x (p.getSize - 1) := by
  have hlen := length_erase hk
  obtain ⟨q, hq, -, -, hfit⟩ := ht.level.leaves (lo, x) (by simp)
  obtain rfl : p = q := by simpa using hp.symm.trans hq
  have hfits : ∀ size, LeafFits s (Ls = []) size → Fits .LeafPage s1 (Ls = []) size := by
    intro size hs
    simpa [LeafFits, Fits, low, capacity, h1m] using hs
  have hnotx : ∀ y ∈ ids A ++ ids B, y ≠ x := by
    rintro y hy rfl
    have hnd' := (List.nodup_append.1 hnd).1
    simp only [List.map_append, List.map_cons] at hnd'
    exact (List.nodup_cons.1 (List.perm_middle.nodup_iff.1 hnd')).1 hy
  have hlevel : LeafLevel s1 (Lacking .LeafPage s1 Ls x) (A ++ (lo, x) :: B) ∧ _ :=
    ht.level.update_leaf hp (List.nodup_append.1 hnd).1 h1 h1m
    ((blocks_at ht.level hp).shrink List.eraseP_sublist)
    (fun y hy size hs => by rw [Lacking, if_neg (hnotx y hy)]; exact hfits size hs)
    (by rw [Lacking, if_pos rfl, hlen]; exact hfits _ hfit)
  have hpx : s1.page x = some (.leaf { p with array := p.array.eraseP fun e => e.1 = key }) := by
    rw [h1, Function.update_self]
  refine ⟨hlevel, ht.above.update_leaf hp hnd h1 h1m, fun fuel => ?_⟩
  have hsize : sizeOf s1 x = p.getSize - 1 := by
    rw [sizeOf_leaf hpx, LeafPage.getSize, ← hlen, Nat.add_sub_cancel]
  rw [hsize]
  refine climb_congr Ls ht.above (by simp) hnd (by rw [hpx, hp]; rfl) (fun y _ hyx => ?_) fun y hy => ?_
  · rw [sizeOf, sizeOf, h1, Function.update_of_ne hyx]
  · rw [h1, Function.update_of_ne]
    rintro rfl
    exact (List.nodup_append.1 hnd).2.2 y (by simp) y hy rfl

theorem perm_removed {used used' pages pages' orphans c : List Nat} {P : Nat → Bool} (hu : used.Perm (pages ++ orphans))
    (hp : (pages' ++ c).Perm pages) (hc : used.Perm (c.filter P ++ used')) :
    used'.Perm (pages' ++ (orphans ++ c.filter fun y => !P y)) := by
  refine (List.perm_append_left_iff (c.filter P)).1 (hc.symm.trans (hu.trans ?_))
  rw [List.perm_iff_count] at hp ⊢
  intro y
  have h1 := hp y
  have h2 := (List.filter_append_perm P c).count_eq y
  simp only [List.count_append] at h1 h2 ⊢
  omega

/-- The rest of the call once the entry is out of its leaf. -/
theorem remove_rest (ht : Tree s (A ++ (lo, x) :: B) Ls) (ha : Alloc s used free h)
    (hperm : used.Perm (ids (A ++ (lo, x) :: B) ++ allIds Ls ++ orphans)) (h2 : 2 ≤ s.member.leafMaxSize)
    (hfuel : Ls.length < fuel) (hp : s.page x = some (.leaf p)) (hlo : lo ≤ (key : WithBot K))
    (hB : ∀ b ∈ B, (key : WithBot K) < b.1) (hk : toMap p.array key = some value)
    (h1 : s1.page = Function.update s.page x (some (.leaf { p with array := p.array.eraseP fun e => e.1 = key })))
    (h1p : s1.pins = Function.update s.pins x (s.pins x + 1)) (h1m : s1.member = s.member) :
    wp exec (do
        let needDelete ← if (p.array.eraseP fun e => e.1 = key).length < p.maxSize / 2 then
          BPlusTree.coalesceOrRedistribute fuel .LeafPage x else pure false
        let leafID := (← getLeaf x).pageID
        unpinPage leafID true
        if needDelete then
          let _ ← deleteIndexPage leafID
        pure (some value))
      (fun r s' => r = some value ∧
        Removed s s' (contents s (A ++ (lo, x) :: B)) orphans key (climb s fuel x (p.getSize - 1))) s1 := by
  obtain ⟨q, hq, hid, hmax, -⟩ := ht.level.leaves (lo, x) (by simp)
  obtain rfl : p = q := by simpa using hp.symm.trans hq
  have hmem : ∀ y ∈ ids (A ++ (lo, x) :: B) ++ allIds Ls, y ∈ used := fun y hy =>
    hperm.mem_iff.2 (List.mem_append_left _ hy)
  have hnd : (ids (A ++ (lo, x) :: B) ++ allIds Ls).Nodup :=
    ((hperm.nodup_iff.1 (List.nodup_append.1 ha.nodup).1).sublist (List.sublist_append_left _ _))
  have hxL : x ∈ ids (A ++ (lo, x) :: B) := by simp
  have hxu : x ∈ used := hmem x (List.mem_append_left _ hxL)
  have hup : x ∉ allIds Ls := fun hx => (List.nodup_append.1 hnd).2.2 x hxL x hx rfl
  have hux : ∀ y ∉ used, y ≠ x := by
    rintro y hy rfl
    exact hy hxu
  obtain ⟨hrow, habove, hclimb⟩ := ht.erase hp hnd hk h1 h1m
  have ha1 : Alloc s1 used free h :=
    ha.frame (by rw [h1m]) (fun y hy => by rw [h1, Function.update_of_ne (hux y hy)]) fun y _ hy => by
      rw [h1p, Function.update_of_ne (hux y hy)]
  have hcap : 2 * low .LeafPage ≤ capacity .LeafPage s1 := by
    simpa [low, capacity, h1m] using h2
  -- a leaf that is too small is merged or borrows, another one stays
  have hS : wp exec (if (p.array.eraseP fun e => e.1 = key).length < p.maxSize / 2 then
      BPlusTree.coalesceOrRedistribute fuel .LeafPage x else pure false) (fun b s2 => Shrunk .LeafPage s1 s2 used
      (A ++ (lo, x) :: B) Ls (flat (blocks s A ++ (lo, p.array.eraseP fun e => e.1 = key) :: blocks s B)) [] x b
      (climb s fuel x (p.getSize - 1))) s1 := by
    have hsize : (p.array.eraseP fun e => e.1 = key).length = sizeOf s1 x := by
      rw [sizeOf_leaf (p := { p with array := p.array.eraseP fun e => e.1 = key }) (by rw [h1, Function.update_self])]
    have hcapm : p.maxSize = capacity .LeafPage s1 := by rw [hmax, capacity, h1m]
    rw [hsize, hcapm, ← hclimb]
    by_cases hlt : sizeOf s1 x < capacity .LeafPage s1 / 2
    · rw [if_pos hlt]
      exact coalesceOrRedistribute_spec Ls (by omega) hrow hxL habove ha1 hcap hlt hnd hmem
    · rw [if_neg hlt, wp_pure]
      exact Shrunk.large hrow hxL habove ha1 hcap (not_lt.1 hlt)
  -- what is left to do: give up the pin, and free the leaf if it died
  have hrest : ∀ b s2, Shrunk .LeafPage s1 s2 used (A ++ (lo, x) :: B) Ls
      (flat (blocks s A ++ (lo, p.array.eraseP fun e => e.1 = key) :: blocks s B)) [] x b (climb s fuel x (p.getSize - 1)) →
      wp exec (do
        let leafID := (← getLeaf x).pageID
        unpinPage leafID true
        if b then
          let _ ← deleteIndexPage leafID
        pure (some value)) (fun r s' => r = some value ∧
          Removed s s' (contents s (A ++ (lo, x) :: B)) orphans key (climb s fuel x (p.getSize - 1))) s2 := by
    intro b s2 hS
    obtain ⟨q, hq, hqid⟩ := hS.kind
    obtain ⟨hpos, hrel⟩ := hS.release (n := s.pins x) hxu hup (by rw [h1p, Function.update_self])
      (R := fun t => True ∧
        Removed s t (contents s (A ++ (lo, x) :: B)) orphans key (climb s fuel x (p.getSize - 1)))
      fun t htp htm htpage hreleased => by
        obtain ⟨used', free', h', ha', hperm'⟩ := hreleased
        have hpins : Function.update s1.pins x (s.pins x) = s.pins := by simp [h1p]
        rw [hpins] at hperm'
        obtain ⟨pages', hholds, hpages⟩ := hS.result
        have hpu : ∀ y ∈ pages', y ∈ used := fun y hy => hmem y (hpages.subset (List.mem_append_left _ hy))
        refine ⟨trivial, ?_, ?_, ?_, pages', _, used', free', h', ha', ?_, ?_, toMap_flat_erase ht.level hp hlo hB⟩
        · rw [htp, hS.pins]
          -- a borrowing leaves one more pin on the parent
          cases hc : (climb s fuel x (p.getSize - 1)).2 with
          | none => exact hpins
          | some a =>
            have hxa : a ≠ x := by
              rintro rfl
              exact hup (hS.borrowed _ hc)
            rw [pinned, pinned, Function.update_comm hxa, hpins, h1p, Function.update_of_ne hxa]
        · rw [htm, hS.changes.leafMax, h1m]
        · rw [htm, hS.changes.internalMax, h1m]
        · refine Holds.congr hholds (fun y hy => htpage y (ha.ne_zero (hpu y hy)) ?_) htm
          rintro rfl rfl
          obtain ⟨D, -, hcD, -⟩ := hS.discards
          exact (List.nodup_append.1 (hpages.nodup_iff.2 hnd)).2.2 _ hy _ (hcD.symm.subset (by simp)) rfl
        · simpa using perm_removed hperm hpages hperm'
    simp only [wp_bind, wp_getLeaf, hq, Option.some.injEq, IndexFilePage.leaf.injEq, exists_eq_left', hqid,
      wp_unpinPage, wp_ite, wp_pure]
    exact ⟨hpos, hrel⟩
  dsimp only
  rw [wp_ite] at hS ⊢
  by_cases hlt : (p.array.eraseP fun e => e.1 = key).length < p.maxSize / 2
  · rw [if_pos hlt] at hS ⊢
    rw [wp_bind]
    exact wp_conseq hS hrest
  · rw [if_neg hlt] at hS ⊢
    rw [wp_bind]
    exact wp_conseq hS hrest

/-- The leaf of a key, and the walk down to it, give back the store but for one pin. -/
theorem find_leaf {L : Level K} (key : K) (ht : Tree s L Ls) (hfuel : Ls.length < fuel) :
    ∃ A lo x B p, L = A ++ (lo, x) :: B ∧ lo ≤ (key : WithBot K) ∧ (∀ b ∈ B, (key : WithBot K) < b.1) ∧
      s.page x = some (.leaf p) ∧ p.pageID = x ∧ toMap (contents s L) key = toMap p.array key ∧
      run exec (BPlusTree.findLeafPage fuel key false) s = some (x, s.setPins x (s.pins x + 1)) := by
  obtain ⟨x, s', hrun, A, lo, B, rfl, hlo, hB, rfl⟩ := findLeafPage_spec key ht.level ht.above hfuel
  obtain ⟨p, hp, hid, -⟩ := ht.level.leaves (lo, x) (by simp)
  exact ⟨A, lo, x, B, p, rfl, hlo, hB, hp, hid, toMap_contents ht.level hp hlo hB, hrun⟩

omit [Inhabited K] in
theorem wp_findLeafPage {α : Type} {fuel : Nat} {f : PageIDType → IndexProg K V α} {Q : α → IndexStore K V → Prop}
    {s' : IndexStore K V} (hrun : run exec (BPlusTree.findLeafPage fuel key false) s = some (x, s'))
    (hf : wp exec (f x) Q s') : wp exec (BPlusTree.findLeafPage fuel key false >>= f) Q s := by
  rw [wp_bind]
  exact ⟨x, s', hrun, hf⟩

theorem getValue_tree {L : Level K} {fuel : Nat} (key : K) (ht : Tree s L Ls) (hfuel : Ls.length < fuel) :
    wp exec (BPlusTree.getValue fuel key) (fun r s' => r = toMap (contents s L) key ∧ s' = s) s := by
  simp only [BPlusTree.getValue, wp_bind, wp_getMember]
  obtain ⟨r, hr, -⟩ := ht.root
  rw [hr, if_neg (by simp)]
  obtain ⟨A, lo, x, B, p, rfl, hlo, hB, hp, hid, hmap, hrun⟩ := find_leaf key ht hfuel
  apply wp_findLeafPage hrun
  simp only [wp_bind, wp_getLeaf, setPins_page, hp, Option.some.injEq, IndexFilePage.leaf.injEq, exists_eq_left', hid,
    wp_unpinPage, wp_pure, setPins_pins, Function.update_self]
  refine ⟨by omega, by rw [hmap, LeafPage.lookup_eq], ?_⟩
  simp [setPins]

/-- A lookup reads the map and gives back its pins. -/
theorem getValue_spec {pages : List Nat} {es : List (K × V)} {fuel : Nat} (key : K) (hh : Holds s pages es)
    (ha : Alloc s used free h) (hperm : used.Perm (pages ++ orphans)) (hfuel : h.nextPageID ≤ fuel) :
    wp exec (BPlusTree.getValue fuel key) (fun r s' => r = toMap es key ∧ s' = s) s := by
  rcases hh with ⟨hr, rfl, rfl⟩ | ⟨L, Ls, ht, rfl, rfl⟩
  · simp only [BPlusTree.getValue, wp_bind, wp_getMember]
    rw [if_pos hr, wp_pure]
    exact ⟨rfl, rfl⟩
  · exact getValue_tree key ht (lt_of_lt_of_le (ht.depth ha hperm) hfuel)

theorem remove_tree {L : Level K} {fuel : Nat} (key : K) (ht : Tree s L Ls) (ha : Alloc s used free h)
    (hperm : used.Perm (ids L ++ allIds Ls ++ orphans)) (h2 : 2 ≤ s.member.leafMaxSize) (hfuel : Ls.length < fuel) :
    wp exec (BPlusTree.remove fuel key) (fun r s' => r = toMap (contents s L) key ∧
      ((toMap (contents s L) key = none ∧ removal s fuel key = ([], none) ∧ s' = s) ∨
        Removed s s' (contents s L) orphans key (removal s fuel key))) s := by
  simp only [BPlusTree.remove, wp_bind, wp_getMember]
  obtain ⟨r, hr, -⟩ := ht.root
  rw [hr, if_neg (by simp)]
  obtain ⟨A, lo, x, B, p, rfl, hlo, hB, hp, hid, hmap, hrun⟩ := find_leaf key ht hfuel
  have hremoval : removal s fuel key =
      if (p.lookup key).isSome then climb s fuel x (p.getSize - 1) else ([], none) := by
    rw [removal, hrun]
    simp only [hp]
  apply wp_findLeafPage hrun
  rw [hmap, hremoval]
  simp only [wp_bind, wp_getLeaf, setPins_page, hp, Option.some.injEq, IndexFilePage.leaf.injEq, exists_eq_left']
  rcases hk : toMap p.array key with _ | value
  · rw [LeafPage.remove_absent hk, LeafPage.lookup_eq, hk]
    simp only [wp_bind, wp_unpinPage, wp_pure, hid, setPins_pins, Function.update_self]
    refine ⟨by omega, trivial, .inl ⟨trivial, by simp, ?_⟩⟩
    simp [setPins]
  · rw [LeafPage.remove_present hk, LeafPage.lookup_eq, hk, Option.isSome_some, if_pos rfl]
    simp only [wp_bind, wp_setLeaf, setPins_page, hp]
    refine ⟨⟨_, rfl⟩, ?_⟩
    have hrest := remove_rest ht ha hperm h2 hfuel hp hlo hB hk (show ((s.setPins x (s.pins x + 1)).setPage x
      (.leaf { p with array := p.array.eraseP fun e => e.1 = key })).page = _ from rfl) rfl rfl
    exact wp_conseq hrest fun r s' hr => ⟨hr.1, .inr hr.2⟩

/-- A removal of an absent key changes nothing; one of a key that is there takes it out. -/
theorem remove_spec {pages : List Nat} {es : List (K × V)} {fuel : Nat} (key : K) (hh : Holds s pages es)
    (ha : Alloc s used free h) (hperm : used.Perm (pages ++ orphans)) (h2 : 2 ≤ s.member.leafMaxSize)
    (hfuel : h.nextPageID ≤ fuel) :
    wp exec (BPlusTree.remove fuel key) (fun r s' => r = toMap es key ∧
      ((toMap es key = none ∧ removal s fuel key = ([], none) ∧ s' = s) ∨
        Removed s s' es orphans key (removal s fuel key))) s := by
  rcases hh with ⟨hr, rfl, rfl⟩ | ⟨L, Ls, ht, rfl, rfl⟩
  · simp only [BPlusTree.remove, wp_bind, wp_getMember]
    rw [if_pos hr, wp_pure]
    refine ⟨rfl, .inl ⟨rfl, ?_, rfl⟩⟩
    have hrun : run exec (BPlusTree.findLeafPage fuel key false) s = none := by
      simp [BPlusTree.findLeafPage, run_bind, getMember, perform, run, exec, hr]
    rw [removal, hrun]
  · exact remove_tree key ht ha hperm h2 (lt_of_lt_of_le (ht.depth ha hperm) hfuel)

end Operation

end MisakiDB
