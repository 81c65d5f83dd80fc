import MisakiDB.Index.Leaves
/-!
# What an insertion does

`Holds s pages es` says that the store holds a tree (or none) with the pages
`pages` and the entries `es`. Inserting an absent key puts it among the entries,
adds only new pages and gives back every pin it took; inserting a key that is
there changes no page and keeps the pin on the leaf.
-/

namespace MisakiDB

open Prog PageStore Blocks

variable {K V : Type} [LinearOrder K]

/-- The tree in the store, if there is one, has the pages `pages` and the entries `es`. -/
def Holds [Inhabited K] (s : IndexStore K V) (pages : List Nat) (es : List (K × V)) : Prop :=
  (s.member.rootPageID = none ∧ pages = [] ∧ es = []) ∨
    ∃ L Ls, Tree s L Ls ∧ pages = ids L ++ allIds Ls ∧ es = contents s L

theorem Tree.root [Inhabited K] {s : IndexStore K V} {L : Level K} {Ls : List (Level K)} (h : Tree s L Ls) :
    ∃ r, s.member.rootPageID = some r ∧ r ∈ ids L ++ allIds Ls := by
  have : ∀ (Ls : List (Level K)) (L : Level K), Above s L Ls →
      ∃ r, s.member.rootPageID = some r ∧ r ∈ ids L ++ allIds Ls := by
    intro Ls
    induction Ls with
    | nil =>
      rintro L ⟨r, rfl, hr, -⟩
      exact ⟨r, hr, by simp⟩
    | cons L' Ls ih =>
      rintro L ⟨-, -, ha⟩
      obtain ⟨r, hr, hm⟩ := ih L' ha
      refine ⟨r, hr, ?_⟩
      rw [allIds, List.flatMap_cons]
      exact List.mem_append_right _ hm
  exact this Ls L h.above

/-! ## The leaf split -/

section Split
variable {s : IndexStore K V} {used free : List Nat} {h : IndexFileHeader}

omit [LinearOrder K] in
/-- A full leaf is cut in two; nothing else changes but the new page. -/
theorem split_leaf_spec {x : Nat} {p : LeafPage K V} (ha : Alloc s used free h) (hp : s.page x = some (.leaf p))
    (hfull : p.maxSize ≤ p.array.length) (hx : x ∈ used) :
    wp exec (BPlusTree.split .LeafPage x) (fun q s' => ∃ free' h', q ∉ used ∧ q ≠ 0 ∧ s.pins q = 0 ∧
      s'.page x = some (.leaf { p with array := p.array.take ((p.array.length + 1) / 2) }) ∧
      s'.page q = some (.leaf ⟨q, p.parentPageID, s.member.leafMaxSize, none,
        p.array.drop ((p.array.length + 1) / 2)⟩) ∧
      (∀ y, y ≠ 0 → y ≠ x → y ≠ q → s'.page y = s.page y) ∧
      s'.pins = Function.update s.pins q 1 ∧ s'.member = s.member ∧ Alloc s' (q :: used) free' h') s := by
  have hx0 := ha.ne_zero hx
  have hfull' : ¬ p.array.length < p.maxSize := by omega
  simp only [BPlusTree.split, wp_bind, wp_getNode, hp, Option.bind_some, IndexFilePage.node_leaf, Option.some.injEq,
    exists_eq_left', wp_ite, if_neg hfull']
  apply wp_conseq (newIndexPage_spec ha)
  rintro q s1 ⟨free', h', hq, hq0, hpin, h1, hpins, hmem, ha1⟩
  have hxq : x ≠ q := by rintro rfl; exact hq hx
  simp only [wp_getMember, wp_setLeaf, wp_pure, LeafPage.moveHalfTo, wp_bind, wp_getLeaf, setPage_page,
    Function.update_of_ne hxq, h1, Function.update_of_ne hx0, hp, Option.some.injEq, IndexFilePage.leaf.injEq,
    exists_eq_left', Function.update_self, LeafPage.getSize]
  refine ⟨⟨_, rfl⟩, ⟨_, rfl⟩, ⟨_, rfl⟩, free', h', hq, hq0, hpin, ?_, ?_, ?_, hpins, hmem, ?_⟩
  · rfl
  · simp [Ne.symm hxq, LeafPage.init, LeafPage.copyNFrom, hmem]
  · intro y hy0 hyx hyq
    simp [hyx, hyq, hy0]
  · refine ha1.frame rfl (fun y hy => ?_) fun _ _ _ => rfl
    simp only [List.mem_cons, not_or] at hy
    have hyx : y ≠ x := by rintro rfl; exact hy.2 hx
    simp [hyx, hy.1]

end Split

/-! ## The leaf gets an entry -/

section Leaf
variable {s s' : IndexStore K V} {A B : Level K} {Ls : List (Level K)} {x : Nat} {lo : WithBot K} {p : LeafPage K V}

theorem blocks_at {fits : Nat → Nat → Prop} (hl : LeafLevel s fits (A ++ (lo, x) :: B))
    (hp : s.page x = some (.leaf p)) : Ordered (blocks s A ++ (lo, p.array) :: blocks s B) := by
  have := hl.ordered
  rwa [blocks_append, blocks_cons, entries_eq (n := (lo, x)) hp] at this

theorem bounds_blocks {key : WithBot K} (h : ∀ b ∈ B, key < b.1) : ∀ b ∈ blocks s B, key < b.1 := by
  intro b hb
  obtain ⟨n, hn, rfl⟩ := List.mem_map.1 hb
  exact h n hn

/-- The leaf with one entry more is still between its bounds. -/
theorem ordered_insert {fits : Nat → Nat → Prop} {key : K} (value : V) (hl : LeafLevel s fits (A ++ (lo, x) :: B))
    (hp : s.page x = some (.leaf p)) (hlo : lo ≤ key) (hB : ∀ b ∈ B, (key : WithBot K) < b.1)
    (hnew : toMap p.array key = none) :
    Ordered (blocks s A ++ (lo, insertSorted p.array key value) :: blocks s B) := by
  have hord := blocks_at hl hp
  have hs := hord.sorted (lo, p.array) (by simp)
  refine hord.replace (hs.insertSorted hnew value) (fun e he => ?_) fun e he b hb => ?_
  · rcases (mem_insertSorted hs hnew).1 he with rfl | he
    · exact hlo
    · exact hord.above (lo, p.array) (by simp) e he
  · rcases (mem_insertSorted hs hnew).1 he with rfl | he
    · exact bounds_blocks hB b hb
    · exact ((List.pairwise_cons.1 (List.pairwise_append.1 hord.apart).2.1).1 b hb).2 e he

theorem toMap_contents {fits : Nat → Nat → Prop} {key : K} (hl : LeafLevel s fits (A ++ (lo, x) :: B))
    (hp : s.page x = some (.leaf p)) (hlo : lo ≤ key) (hB : ∀ b ∈ B, (key : WithBot K) < b.1) :
    toMap (contents s (A ++ (lo, x) :: B)) key = toMap p.array key := by
  rw [contents, blocks_append, blocks_cons, entries_eq (n := (lo, x)) hp]
  exact (blocks_at hl hp).toMap_flat hlo (bounds_blocks hB)

/-- What the entry does to the whole map. -/
theorem toMap_flat_insert {fits : Nat → Nat → Prop} {key : K} (value : V) (hl : LeafLevel s fits (A ++ (lo, x) :: B))
    (hp : s.page x = some (.leaf p)) (hlo : lo ≤ key) (hB : ∀ b ∈ B, (key : WithBot K) < b.1)
    (hnew : toMap p.array key = none) (k : K) :
    toMap (flat (blocks s A ++ (lo, insertSorted p.array key value) :: blocks s B)) k =
      if k = key then some value else toMap (contents s (A ++ (lo, x) :: B)) k := by
  have hord := blocks_at hl hp
  have hs := hord.sorted (lo, p.array) (by simp)
  split
  · next h =>
    subst h
    rw [(ordered_insert value hl hp hlo hB hnew).toMap_flat hlo (bounds_blocks hB), toMap_insertSorted hs hnew,
      if_pos rfl]
  · next h =>
    rw [contents, blocks_append, blocks_cons, entries_eq (n := (lo, x)) hp]
    simp only [flat_append, flat_cons, toMap_append]
    rw [toMap_insertSorted hs hnew, if_neg h]

/-- One leaf gets other entries. -/
theorem LeafLevel.update_leaf {fits fits' : Nat → Nat → Prop} {es : List (K × V)}
    (hl : LeafLevel s fits (A ++ (lo, x) :: B)) (hp : s.page x = some (.leaf p)) (hnd : (ids (A ++ (lo, x) :: B)).Nodup)
    (hs' : s'.page = Function.update s.page x (some (.leaf { p with array := es }))) (hmem : s'.member = s.member)
    (hord : Ordered (blocks s A ++ (lo, es) :: blocks s B))
    (hf : ∀ y ∈ ids A ++ ids B, ∀ size, fits y size → fits' y size)
    (hfits : fits' x es.length) : LeafLevel s' fits' (A ++ (lo, x) :: B) ∧
      contents s' (A ++ (lo, x) :: B) = flat (blocks s A ++ (lo, es) :: blocks s B) := by
  have hx : ∀ y ∈ ids A ++ ids B, y ≠ x := by
    rintro y hy rfl
    simp only [List.map_append, List.map_cons] at hnd
    exact (List.nodup_cons.1 (List.perm_middle.nodup_iff.1 hnd)).1 hy
  have hne : ∀ y, y ≠ x → s'.page y = s.page y := by
    intro y hy
    rw [hs', Function.update_of_ne hy]
  have hpx : s'.page x = some (.leaf { p with array := es }) := by rw [hs', Function.update_self]
  have hM : A ++ (lo, x) :: B = A ++ [(lo, x)] ++ B := by simp
  obtain ⟨q, hq, hid, hmax, -⟩ := hl.leaves (lo, x) (by simp)
  obtain rfl : p = q := by simpa using hp.symm.trans hq
  have hside : ∀ y ∈ ids A ++ ids B, SameBody s s' y := fun y hy => .of_eq (hne y (hx y hy))
  have hbl : blocks s' (A ++ (lo, x) :: B) = blocks s A ++ (lo, es) :: blocks s B := by
    simp only [List.forall_mem_append] at hside
    rw [blocks_append, blocks_cons, blocks_congr hside.1, blocks_congr hside.2, entries_eq (n := (lo, x)) hpx]
  have hnext : nextOf s x = some (first B none) := by
    have := hl.chained
    rw [chained_append] at this
    exact this.2.1
  refine ⟨?_, by rw [contents, hbl]⟩
  rw [hM]
  refine LeafLevel.splice (M := [(lo, x)]) (hM ▸ hl) hside (by rw [hmem]) hf ?_ rfl ?_ ?_
  · intro n hn
    rw [List.mem_singleton] at hn
    subst hn
    exact ⟨_, hpx, hid, by rw [hmem]; exact hmax, hfits⟩
  · refine ⟨?_, trivial⟩
    rw [nextOf_eq hp] at hnext
    rw [nextOf_eq hpx]
    exact hnext
  · simpa [blocks, entries_eq (n := (lo, x)) hpx] using hord

variable [Inhabited K]

omit [LinearOrder K] in
/-- The levels above do not see it. -/
theorem Above.update_leaf {es : List (K × V)} (hab : Above s (A ++ (lo, x) :: B) Ls) (hp : s.page x = some (.leaf p))
    (hnd : (ids (A ++ (lo, x) :: B) ++ allIds Ls).Nodup)
    (hs' : s'.page = Function.update s.page x (some (.leaf { p with array := es }))) (hmem : s'.member = s.member) :
    Above s' (A ++ (lo, x) :: B) Ls := by
  have hne : ∀ y, y ≠ x → s'.page y = s.page y := by
    intro y hy
    rw [hs', Function.update_of_ne hy]
  refine hab.congr (fun y hy => hne y ?_) (by rw [hmem]) (by rw [hmem]) fun y hy a hpa => ?_
  · rintro rfl
    exact (List.nodup_append.1 hnd).2.2 y (by simp) y hy rfl
  · rcases eq_or_ne y x with rfl | hyx
    · rw [hasParent_leaf hp] at hpa
      rw [hasParent_leaf (p := { p with array := es }) (by rw [hs', Function.update_self])]
      exact hpa
    · exact hpa.congr (hne y hyx)

/-- One leaf gets other entries, of an allowed number. -/
theorem Tree.update_leaf {es : List (K × V)} (ht : Tree s (A ++ (lo, x) :: B) Ls) (hp : s.page x = some (.leaf p))
    (hnd : (ids (A ++ (lo, x) :: B) ++ allIds Ls).Nodup)
    (hs' : s'.page = Function.update s.page x (some (.leaf { p with array := es }))) (hmem : s'.member = s.member)
    (hord : Ordered (blocks s A ++ (lo, es) :: blocks s B)) (hfits : LeafFits s (Ls = []) es.length) :
    Tree s' (A ++ (lo, x) :: B) Ls ∧
      contents s' (A ++ (lo, x) :: B) = flat (blocks s A ++ (lo, es) :: blocks s B) := by
  have hfits' : ∀ size, LeafFits s (Ls = []) size → LeafFits s' (Ls = []) size := by
    intro size hs
    simpa [LeafFits, hmem] using hs
  obtain ⟨hlevel, hcont⟩ := ht.level.update_leaf hp (List.nodup_append.1 hnd).1 hs' hmem hord
    (fun _ _ size => hfits' size) (hfits' _ hfits)
  exact ⟨⟨hlevel, ht.above.update_leaf hp hnd hs' hmem⟩, hcont⟩

/-- A leaf is cut in two and the levels above take the new one in. -/
theorem Tree.split_leaf {left right : List (K × V)} {e : K × V} {q : Nat} {a : Option Nat}
    {Ls' : List (Level K)} (ht : Tree s (A ++ (lo, x) :: B) Ls) (hp : s.page x = some (.leaf p))
    (hpx : s'.page x = some (.leaf ⟨p.pageID, a, p.maxSize, some q, left⟩))
    (hpq : ∃ b, s'.page q = some (.leaf ⟨q, b, s.member.leafMaxSize, p.nextPageID, e :: right⟩))
    (hside : ∀ y ∈ ids A ++ ids B, SameBody s s' y) (hmem : s'.member.leafMaxSize = s.member.leafMaxSize)
    (hord : Ordered (blocks s A ++ (lo, left ++ e :: right) :: blocks s B))
    (hl : LeafFits s False left.length) (hr : LeafFits s False (e :: right).length)
    (hbig : Ls ≠ [] ∨ A = [] ∧ B = []) (hab : Above s' (A ++ (lo, x) :: ((e.1 : WithBot K), q) :: B) Ls') :
    Tree s' (A ++ (lo, x) :: ((e.1 : WithBot K), q) :: B) Ls' ∧
      contents s' (A ++ (lo, x) :: ((e.1 : WithBot K), q) :: B) =
        flat (blocks s A ++ (lo, left ++ e :: right) :: blocks s B) := by
  obtain ⟨b, hpq⟩ := hpq
  have hM : A ++ (lo, x) :: B = A ++ [(lo, x)] ++ B := by simp
  have hN : A ++ (lo, x) :: ((e.1 : WithBot K), q) :: B = A ++ [(lo, x), ((e.1 : WithBot K), q)] ++ B := by simp
  obtain ⟨p', hp', hid, hmax, -⟩ := ht.level.leaves (lo, x) (by simp)
  obtain rfl : p = p' := by simpa using hp.symm.trans hp'
  have hfits : ∀ size, LeafFits s False size → LeafFits s' (Ls' = []) size := by
    intro size hs
    rw [LeafFits, hmem]
    exact ⟨hs.1, fun _ => hs.2.1 not_false, hs.2.2⟩
  -- the new leaf takes over the old one's next page
  have hnext : p.nextPageID = first B none := by
    have := ht.level.chained
    rw [chained_append] at this
    have := this.2.1
    rw [nextOf_eq hp] at this
    exact Option.some.inj this
  have hne : left ≠ [] := by
    rintro rfl
    simp [LeafFits] at hl
  have hbl : blocks s' (A ++ (lo, x) :: ((e.1 : WithBot K), q) :: B) =
      blocks s A ++ (lo, left) :: ((e.1 : WithBot K), e :: right) :: blocks s B := by
    simp only [List.forall_mem_append] at hside
    rw [blocks_append, blocks_cons, blocks_cons, blocks_congr hside.1, blocks_congr hside.2,
      entries_eq (n := (lo, x)) hpx, entries_eq (n := ((e.1 : WithBot K), q)) hpq]
  refine ⟨⟨?_, hab⟩, by rw [contents, hbl]; simp⟩
  rw [hN]
  have hlevel : LeafLevel s (fun _ => LeafFits s (Ls = [])) (A ++ [(lo, x)] ++ B) := hM ▸ ht.level
  refine hlevel.splice hside hmem
    (fun y hy size hs => hfits size ⟨hs.1, fun _ => hs.2.1 ?_, hs.2.2⟩) ?_ rfl ?_ ?_
  · rcases hbig with h | ⟨rfl, rfl⟩
    · exact h
    · simp at hy
  · intro n hn
    rw [List.mem_cons, List.mem_singleton] at hn
    rcases hn with rfl | rfl
    · exact ⟨_, hpx, hid, by rw [hmem]; exact hmax, hfits _ hl⟩
    · exact ⟨_, hpq, rfl, hmem.symm, hfits _ hr⟩
  · refine ⟨?_, ?_, trivial⟩
    · rw [nextOf_eq hpx]
      rfl
    · rw [nextOf_eq hpq, hnext]
      rfl
  · have := hord.cut hne
    simpa [blocks, entries_eq (n := (lo, x)) hpx, entries_eq (n := ((e.1 : WithBot K), q)) hpq] using this

end Leaf

/-! ## The operation -/

section Operation
variable {s : IndexStore K V} {used free orphans : List Nat} {h : IndexFileHeader}

theorem LeafPage.insert_eq (p : LeafPage K V) (key : K) (value : V) :
    p.insert key value = { p with array := insertSorted p.array key value } := rfl

theorem LeafPage.lookup_eq (p : LeafPage K V) (key : K) : p.lookup key = toMap p.array key := rfl

omit [LinearOrder K] in
/-- Levels have pages, so the walk is no longer than the number of pages. -/
theorem Above.length_le [Inhabited K] {L : Level K} {Ls : List (Level K)} (hab : Above s L Ls) :
    L ≠ [] ∧ Ls.length ≤ (allIds Ls).length := by
  induction Ls generalizing L with
  | nil =>
    obtain ⟨r, rfl, -⟩ := hab
    simp
  | cons L' Ls ih =>
    obtain ⟨rfl, hl, ha⟩ := hab
    obtain ⟨hne, hlen⟩ := ih ha
    obtain ⟨n, L', rfl⟩ := List.exists_cons_of_ne_nil hne
    obtain ⟨p, hp, -, -, hs, -⟩ := hl n (by simp)
    obtain ⟨e, es, hes⟩ := List.exists_cons_of_length_pos (lt_of_lt_of_le (by omega) hs.1)
    refine ⟨by simp [children_eq hp, hes], ?_⟩
    simp only [allIds, List.length_cons, List.flatMap_cons, List.length_append, List.length_map] at hlen ⊢
    omega

omit [LinearOrder K] in
theorem Alloc.length_lt (ha : Alloc s used free h) : used.length < h.nextPageID := by
  have := ha.perm.length_eq
  have := ha.next_pos
  simp only [List.length_append, List.length_range'] at this ‹(used ++ free).length = _›
  omega

variable [Inhabited K]

theorem Tree.depth {L : Level K} {Ls : List (Level K)} (ht : Tree s L Ls) (ha : Alloc s used free h)
    (hp : used.Perm (ids L ++ allIds Ls ++ orphans)) : Ls.length < h.nextPageID := by
  have h1 := ht.above.length_le.2
  have h2 := hp.length_eq
  have h3 := ha.length_lt
  simp only [List.length_append] at h2
  omega

/-- The store after an insertion of an absent key. -/
def Inserted (s s' : IndexStore K V) (es : List (K × V)) (orphans : List Nat) (key : K) (value : V) : Prop :=
  s'.pins = s.pins ∧ s'.member.leafMaxSize = s.member.leafMaxSize ∧
  s'.member.internalMaxSize = s.member.internalMaxSize ∧
  ∃ pages es' used free h, Alloc s' used free h ∧ Holds s' pages es' ∧ used.Perm (pages ++ orphans) ∧
    ∀ k, toMap es' k = if k = key then some value else toMap es k

theorem startNewTree_spec (key : K) (value : V) (ha : Alloc s orphans free h) (h2 : 2 ≤ s.member.leafMaxSize) :
    wp exec (BPlusTree.startNewTree key value) (fun _ s' => Inserted s s' [] orphans key value) s := by
  simp only [BPlusTree.startNewTree, wp_bind]
  apply wp_conseq (newIndexPage_spec ha)
  rintro q s1 ⟨free', h', hq, hq0, hpin, h1, hpins, hmem, ha1⟩
  simp only [wp_getMember, wp_setLeaf, wp_unpinPage, wp_setRootPageID, wp_updateRootPageID, setPage_pins, setPins_page,
    setPage_page, withMember_page, h1]
  refine ⟨⟨_, Function.update_self ..⟩, by simp [hpins], h', by simp [Ne.symm hq0], ?_⟩
  have harr : ((LeafPage.init q none s1.member.leafMaxSize : LeafPage K V).insert key value).array =
      [(key, value)] := by
    simp [LeafPage.insert, LeafPage.init]
  refine ⟨?_, by simp [hmem], by simp [hmem], [q], [(key, value)], q :: orphans, free',
    { h' with rootPageID := some q },
    ?_, .inr ⟨[(⊥, q)], [], ⟨⟨?_, ?_, ?_⟩, ⟨q, rfl, rfl, ?_⟩⟩, rfl, ?_⟩, List.Perm.refl _, fun k => ?_⟩
  · funext y
    rcases eq_or_ne y q with rfl | hy
    · simp [hpins, hpin]
    · simp [hpins, hy]
  · refine (ha1.frame (rfl : ((s1.setPage q _).setPins q _).member.rootPageID = _) (fun y hy => ?_) fun y _ hy => ?_).setRoot (some q)
    · simp only [List.mem_cons, not_or] at hy
      simp [hy.1]
    · simp only [List.mem_cons, not_or] at hy
      simp [hy.1]
  · intro n hn
    rw [List.mem_singleton] at hn
    subst hn
    refine ⟨_, by simp [hq0]; rfl, rfl, rfl, ?_⟩
    rw [harr]
    exact ⟨by simp, fun hr => absurd rfl hr, by simp [hmem]; omega⟩
  · refine ⟨?_, trivial⟩
    rw [nextOf_eq (p := (LeafPage.init q none s1.member.leafMaxSize : LeafPage K V).insert key value) (by simp [hq0])]
    rfl
  · rw [blocks_cons, blocks_nil, entries_eq (p := (LeafPage.init q none s1.member.leafMaxSize : LeafPage K V).insert
      key value) (by simp [hq0]), harr]
    refine ⟨List.pairwise_singleton _ _, fun b hb => ?_, fun b hb e he => ?_⟩
    · rw [List.mem_singleton.1 hb]
      exact List.pairwise_singleton _ _
    · rw [List.mem_singleton.1 hb]
      exact bot_le
  · rw [hasParent_leaf (p := (LeafPage.init q none s1.member.leafMaxSize : LeafPage K V).insert key value) (by simp [hq0])]
    exact ⟨rfl, rfl⟩
  · rw [contents, blocks_cons, blocks_nil, entries_eq (p := (LeafPage.init q none s1.member.leafMaxSize :
      LeafPage K V).insert key value) (by simp [hq0]), harr]
    simp
  · rw [toMap_cons]
    by_cases hk : k = key
    · simp [hk]
    · rw [if_neg (Ne.symm hk), if_neg hk]

theorem perm_inserted {used A B F U U' O : List Nat} {x q : Nat} (hu : used.Perm (A ++ x :: B ++ U ++ O))
    (hU : U'.Perm (F ++ U)) : (F ++ q :: used).Perm (A ++ x :: q :: B ++ U' ++ O) := by
  rw [List.perm_iff_count] at hu hU ⊢
  intro y
  have h1 := hu y
  have h2 := hU y
  simp only [List.count_append, List.count_cons] at h1 h2 ⊢
  omega

section Full
variable {A B : Level K} {Ls : List (Level K)} {x : Nat} {lo : WithBot K} {p : LeafPage K V} {key : K} {value : V}

/-- The full leaf is split and the call goes up. -/
theorem insertIntoLeaf_split {fuel : Nat} (ht : Tree s (A ++ (lo, x) :: B) Ls) (ha : Alloc s used free h)
    (hperm : used.Perm (ids (A ++ (lo, x) :: B) ++ allIds Ls ++ orphans)) (h2 : 2 ≤ s.member.leafMaxSize)
    (hfuel : Ls.length < fuel) (hp : s.page x = some (.leaf p)) (hlo : lo ≤ (key : WithBot K))
    (hB : ∀ b ∈ B, (key : WithBot K) < b.1) (hnew : toMap p.array key = none)
    (hfull : p.maxSize ≤ (insertSorted p.array key value).length) :
    wp exec (do
        let newLeaf ← BPlusTree.split .LeafPage x
        let p ← getLeaf x
        let q ← getLeaf newLeaf
        setLeaf newLeaf { q with nextPageID := p.nextPageID }
        setLeaf x { p with nextPageID := some q.pageID }
        BPlusTree.insertIntoParent fuel x (← require (q.keyAt 0)) newLeaf
        unpinPage (← getLeaf newLeaf).pageID true
        unpinPage (← getLeaf x).pageID true
        pure true)
      (fun r s' => r = true ∧ Inserted s s' (contents s (A ++ (lo, x) :: B)) orphans key value)
      ((s.setPins x (s.pins x + 1)).setPage x (.leaf (p.insert key value))) := by
  obtain ⟨p', hp', hid, hmax, hfit⟩ := ht.level.leaves (lo, x) (by simp)
  obtain rfl : p = p' := by simpa using hp.symm.trans hp'
  have hord := ordered_insert value ht.level hp hlo hB hnew
  have hmap := toMap_flat_insert value ht.level hp hlo hB hnew
  have hlen : (insertSorted p.array key value).length = s.member.leafMaxSize := by
    have h1 : (insertSorted p.array key value).length = p.array.length + 1 :=
      length_insertSorted ((blocks_at ht.level hp).sorted (lo, p.array) (by simp)) hnew value
    have := hfit.2.2
    omega
  have hL : ids (A ++ (lo, x) :: B) = ids A ++ x :: ids B := by simp
  have hmem : ∀ y ∈ ids (A ++ (lo, x) :: B) ++ allIds Ls, y ∈ used := fun y hy =>
    hperm.mem_iff.2 (List.mem_append_left _ hy)
  have hnd : (ids (A ++ (lo, x) :: B) ++ allIds Ls).Nodup :=
    ((hperm.nodup_iff.1 (List.nodup_append.1 ha.nodup).1).sublist (List.sublist_append_left _ _))
  have hxu : x ∈ used := hmem x (by simp)
  rw [LeafPage.insert_eq]
  set s1 := (s.setPins x (s.pins x + 1)).setPage x (.leaf { p with array := insertSorted p.array key value }) with hs1
  have h1x : s1.page x = some (.leaf { p with array := insertSorted p.array key value }) := by simp [hs1]
  have hux : ∀ y ∉ used, y ≠ x := by
    rintro y hy rfl
    exact hy hxu
  have ha1 : Alloc s1 used free h :=
    ha.frame rfl (fun y hy => by simp [hs1, hux y hy]) fun y _ hy => by simp [hs1, hux y hy]
  rw [wp_bind]
  -- the split, which leaves two halves of the entries
  apply wp_conseq (split_leaf_spec ha1 h1x hfull hxu)
  dsimp only
  rintro q s2 ⟨free2, h2', hq, hq0, hqpin, h2x, h2q, h2rest, h2pins, h2mem, ha2⟩
  have hxq : x ≠ q := by rintro rfl; exact hq hxu
  have hcut := (List.take_append_drop (((insertSorted p.array key value).length + 1) / 2)
    (insertSorted p.array key value)).symm
  have hl1 : ((insertSorted p.array key value).take (((insertSorted p.array key value).length + 1) / 2)).length =
      (s.member.leafMaxSize + 1) / 2 := by
    rw [List.length_take, hlen]
    omega
  have hl2 : ((insertSorted p.array key value).drop (((insertSorted p.array key value).length + 1) / 2)).length =
      s.member.leafMaxSize - (s.member.leafMaxSize + 1) / 2 := by
    rw [List.length_drop, hlen]
  generalize (insertSorted p.array key value).take _ = left at h2x hcut hl1
  generalize (insertSorted p.array key value).drop _ = right at h2q hcut hl2
  obtain ⟨e, R, rfl⟩ : ∃ e R, right = e :: R := List.exists_cons_of_length_pos (by omega)
  rw [hcut] at hord hmap
  simp only [wp_bind, wp_getLeaf, h2x, h2q, Option.some.injEq, IndexFilePage.leaf.injEq, exists_eq_left', wp_setLeaf,
    wp_require, LeafPage.keyAt, List.getElem?_cons_zero, Option.map_some, setPage_page]
  refine ⟨⟨_, rfl⟩, ⟨_, by rw [Function.update_of_ne hxq, h2x]⟩, ?_⟩
  -- the new leaf comes after the old one in the chain
  set s3 := (s2.setPage q (.leaf ⟨q, p.parentPageID, s1.member.leafMaxSize, p.nextPageID, e :: R⟩)).setPage x
    (.leaf ⟨p.pageID, p.parentPageID, p.maxSize, some q, left⟩) with hs3
  have h3x : s3.page x = some (.leaf ⟨p.pageID, p.parentPageID, p.maxSize, some q, left⟩) := by simp [hs3]
  have h3q : s3.page q = some (.leaf ⟨q, p.parentPageID, s1.member.leafMaxSize, p.nextPageID, e :: R⟩) := by
    simp [hs3, Ne.symm hxq]
  have h3rest : ∀ y ∈ used, y ≠ x → s3.page y = s.page y := by
    intro y hy hyx
    have hyq : y ≠ q := by rintro rfl; exact hq hy
    rw [hs3]
    simp only [setPage_page, Function.update_of_ne hyx, Function.update_of_ne hyq]
    rw [h2rest y (ha.ne_zero hy) hyx hyq]
    simp [hs1, hyx]
  have hnotx : ∀ y ∈ ids A ++ ids B ++ allIds Ls, y ≠ x ∧ y ∈ used := by
    intro y hy
    rw [hL, List.append_assoc, List.cons_append] at hnd
    have hx' := (List.nodup_cons.1 (List.perm_middle.nodup_iff.1 hnd)).1
    refine ⟨?_, hmem y ?_⟩
    · rintro rfl
      exact hx' (by simpa using hy)
    · simp only [hL, List.mem_append, List.mem_cons] at hy ⊢
      tauto
  have hab3 : Above s3 (A ++ (lo, x) :: B) Ls := by
    refine ht.above.congr (fun y hy => ?_) (by simp [hs3, h2mem, hs1]) (by simp [hs3, h2mem, hs1]) fun y hy a hpa => ?_
    · obtain ⟨hyx, hyu⟩ := hnotx y (List.mem_append_right _ hy)
      exact h3rest y hyu hyx
    · rcases eq_or_ne y x with rfl | hyx
      · rw [hasParent_leaf hp] at hpa
        rw [hasParent_leaf h3x]
        exact hpa
      · exact hpa.congr (h3rest y (hmem y (List.mem_append_left _ hy)) hyx)
  have ha3 : Alloc s3 (q :: used) free2 h2' := by
    refine ha2.frame rfl (fun y hy => ?_) fun _ _ _ => rfl
    simp only [List.mem_cons, not_or] at hy
    simp [hs3, hux y hy.2, hy.1]
  -- the parents, with the leaves as they are now
  refine wp_conseq (insertIntoParent_spec Ls (a := p.parentPageID) (by omega) hab3 ((hasParent_leaf h3x).2 ⟨hid, rfl⟩)
    ((hasParent_leaf h3q).2 ⟨rfl, rfl⟩) ha3 ?_ ?_) ?_
  · rw [List.cons_append]
    exact List.nodup_cons.2 ⟨fun hqm => hq (hmem q hqm), hnd⟩
  · intro y hy
    rw [List.cons_append, List.mem_cons] at hy
    rcases hy with rfl | hy
    · exact List.mem_cons_self
    · exact List.mem_cons_of_mem _ (hmem y hy)
  rintro - s4 ⟨Ls4, fresh, free4, h4, hab4, ha4, hperm4, hch4, hpins4⟩
  have hnd4 := (List.nodup_append.1 (List.nodup_append.1 ha4.nodup).1).2.2
  have hsame : ∀ y ∈ q :: used, y ∉ allIds Ls → SameBody s3 s4 y := by
    intro y hy hyl
    apply hch4.body y
    simp only [List.mem_cons, List.mem_append, not_or]
    exact ⟨ha4.ne_zero (List.mem_append_right _ hy), fun hf => hnd4 y hf y hy rfl, hyl⟩
  have hupx : x ∉ allIds Ls := fun hx => (hnotx x (List.mem_append_right _ hx)).1 rfl
  -- neither leaf is a parent, so both keep their entries
  obtain ⟨b1, h4q⟩ := (hsame q List.mem_cons_self fun hl => hq (hmem q (List.mem_append_right _ hl))).leaf h3q
  obtain ⟨b2, h4x⟩ := (hsame x (List.mem_cons_of_mem _ hxu) hupx).leaf h3x
  simp only [h4q, Option.some.injEq, IndexFilePage.leaf.injEq, exists_eq_left', wp_unpinPage, setPins_page, h4x,
    setPins_pins, wp_pure, hpins4, hid]
  have hp3 : s3.pins = Function.update (Function.update s.pins x (s.pins x + 1)) q 1 := by
    rw [hs3, setPage_pins, setPage_pins, h2pins, hs1]
    rfl
  refine ⟨by simp [hp3], by simp [hp3, hxq], trivial, ?_, ?_, ?_, ?_⟩
  -- the pins are those before the call
  · funext y
    rcases eq_or_ne y x with rfl | hyx
    · simp [hp3, hxq]
    · rcases eq_or_ne y q with rfl | hyq
      · simpa [hp3, hyx, hs1] using hqpin.symm
      · simp [hpins4, hp3, hyx, hyq]
  · simp [hch4.leafMax, hs3, h2mem, hs1]
  · simp [hch4.internalMax, hs3, h2mem, hs1]
  -- the tree of the new leaves, whose halves fit a page
  · have hfl : LeafFits s False left.length := ⟨by omega, fun _ => by omega, by omega⟩
    have hfr : LeafFits s False (e :: R).length := ⟨by omega, fun _ => by omega, by omega⟩
    have htree : Tree ((s4.setPins q (s3.pins q - 1)).setPins x (Function.update s3.pins q (s3.pins q - 1) x - 1))
        (A ++ (lo, x) :: ((e.1 : WithBot K), q) :: B) Ls4 ∧ _ := ht.split_leaf (a := b2) hp h4x
      ⟨b1, by simpa [hs1] using h4q⟩ (fun y hy => ?_) (by simp [hch4.leafMax, hs3, h2mem, hs1]) hord
      hfl hfr ?_
      (hab4.congr (fun _ _ => rfl) rfl rfl fun _ _ _ hpa => hpa.congr rfl)
    · refine ⟨_, _, fresh ++ q :: used, free4, h4, ?_, .inr ⟨_, Ls4, htree.1, rfl, rfl⟩, ?_, ?_⟩
      · refine ha4.frame rfl (fun _ _ => rfl) fun y h0 hy => ?_
        simp only [List.mem_append, List.mem_cons, not_or] at hy
        simp [hux y hy.2.2, hy.2.1]
      · have := perm_inserted (q := q) (by simpa using hperm) hperm4
        simpa using this
      · rw [htree.2]
        exact hmap
    · obtain ⟨hyx, hyu⟩ := hnotx y (List.mem_append_left _ hy)
      refine (SameBody.of_eq (h3rest y hyu hyx)).trans (hsame y (List.mem_cons_of_mem _ hyu) fun hl => ?_)
      rw [hL, List.append_assoc, List.cons_append] at hnd
      grind [List.nodup_append]
    · rcases Ls with _ | ⟨_, _⟩
      · obtain ⟨r, hr, -⟩ := ht.above
        right
        rcases A with _ | ⟨_, _ | _⟩ <;> simp_all
      · exact .inl (by simp)

end Full

theorem insertIntoLeaf_spec {L : Level K} {Ls : List (Level K)} {fuel : Nat} (key : K) (value : V)
    (ht : Tree s L Ls) (ha : Alloc s used free h) (hperm : used.Perm (ids L ++ allIds Ls ++ orphans))
    (h2 : 2 ≤ s.member.leafMaxSize) (hfuel : Ls.length < fuel) :
    wp exec (BPlusTree.insertIntoLeaf fuel key value) (fun r s' =>
      (toMap (contents s L) key = none ∧ r = true ∧ Inserted s s' (contents s L) orphans key value) ∨
      (toMap (contents s L) key ≠ none ∧ r = false ∧ ∃ x ∈ ids L, s' = s.setPins x (s.pins x + 1))) s := by
  simp only [BPlusTree.insertIntoLeaf, wp_bind]
  refine wp_conseq (findLeafPage_spec key ht.level ht.above hfuel) ?_
  rintro x s1 ⟨A, lo, B, rfl, hlo, hB, rfl⟩
  obtain ⟨p, hp', hid, hmax, hfit⟩ := ht.level.leaves (lo, x) (by simp)
  have hp : s.page x = some (.leaf p) := hp'
  have hmap := toMap_contents ht.level hp hlo hB
  simp only [wp_getLeaf, setPins_page, hp, Option.some.injEq, IndexFilePage.leaf.injEq, exists_eq_left', wp_ite]
  -- the key is new, or the call returns early
  by_cases hk : toMap p.array key = none
  · rw [if_neg (by rw [LeafPage.lookup_eq, hk]; simp)]
    refine wp_conseq (Q := fun r s' => r = true ∧ Inserted s s' (contents s (A ++ (lo, x) :: B)) orphans key value) ?_
      fun r s' hr => .inl ⟨by rw [hmap, hk], hr⟩
    have hxu : x ∈ used := hperm.mem_iff.2 (by simp)
    have hnd : (ids (A ++ (lo, x) :: B) ++ allIds Ls).Nodup :=
      ((hperm.nodup_iff.1 (List.nodup_append.1 ha.nodup).1).sublist (List.sublist_append_left _ _))
    simp only [wp_bind, wp_setLeaf, setPins_page, hp]
    refine ⟨⟨_, rfl⟩, ?_⟩
    -- the leaf is full with the new entry, or has room
    by_cases hfull : p.maxSize ≤ (p.insert key value).getSize
    · rw [if_pos hfull]
      exact insertIntoLeaf_split ht ha hperm h2 hfuel hp hlo hB hk hfull
    · rw [if_neg hfull]
      have hlen : (insertSorted p.array key value).length = p.array.length + 1 :=
        length_insertSorted ((blocks_at ht.level hp).sorted (lo, p.array) (by simp)) hk value
      have hlt : (insertSorted p.array key value).length < p.maxSize := not_le.1 hfull
      have hpid : (p.insert key value).pageID = x := hid
      simp only [wp_bind, wp_getLeaf, setPage_page, Function.update_self, Option.some.injEq, IndexFilePage.leaf.injEq,
        exists_eq_left', hpid, wp_unpinPage, setPage_pins, setPins_pins, wp_pure]
      have hfits : LeafFits s (Ls = []) (insertSorted p.array key value).length :=
        ⟨by omega, fun hr => le_trans (hfit.2.1 hr) (by omega), by omega⟩
      obtain ⟨htree, hcont⟩ : Tree (((s.setPins x (s.pins x + 1)).setPage x (.leaf (p.insert key value))).setPins x
          (s.pins x + 1 - 1)) (A ++ (lo, x) :: B) Ls ∧ _ :=
        ht.update_leaf hp hnd rfl rfl (ordered_insert value ht.level hp hlo hB hk) hfits
      refine ⟨by omega, trivial, by simp, rfl, rfl, _, _, used, free, h, ?_, .inr ⟨_, Ls, htree, rfl, rfl⟩, hperm, ?_⟩
      · have hux : ∀ y ∉ used, y ≠ x := by
          rintro y hy rfl
          exact hy hxu
        exact ha.frame rfl (fun y hy => by simp [hux y hy]) fun y _ hy => by simp
      · rw [hcont]
        exact toMap_flat_insert value ht.level hp hlo hB hk
  · rw [if_pos (by rw [LeafPage.lookup_eq]; exact Option.isSome_iff_ne_none.2 hk), wp_pure]
    exact .inr ⟨by rw [hmap]; exact hk, rfl, x, by simp, rfl⟩

/-- An insertion of an absent key adds it and releases every pin; one of a key that
is there leaves a pin on its leaf. -/
theorem insert_spec {pages : List Nat} {es : List (K × V)} {fuel : Nat} (key : K) (value : V)
    (hh : Holds s pages es) (ha : Alloc s used free h) (hperm : used.Perm (pages ++ orphans))
    (h2 : 2 ≤ s.member.leafMaxSize) (hfuel : h.nextPageID ≤ fuel) :
    wp exec (BPlusTree.insert fuel key value) (fun r s' =>
      (toMap es key = none ∧ r = true ∧ Inserted s s' es orphans key value) ∨
      (toMap es key ≠ none ∧ r = false ∧ ∃ x ∈ pages, s' = s.setPins x (s.pins x + 1))) s := by
  simp only [BPlusTree.insert, wp_bind, wp_getMember]
  rcases hh with ⟨hr, rfl, rfl⟩ | ⟨L, Ls, ht, rfl, rfl⟩
  · rw [if_pos hr]
    rw [List.nil_append] at hperm
    simp only [wp_bind, wp_pure]
    apply wp_conseq (startNewTree_spec key value (ha.congr_used hperm.symm) h2)
    exact fun _ s' hi => .inl ⟨rfl, trivial, hi⟩
  · obtain ⟨r, hr, -⟩ := ht.root
    rw [hr, if_neg (by simp)]
    apply wp_conseq (insertIntoLeaf_spec key value ht ha hperm h2 (lt_of_lt_of_le (ht.depth ha hperm) hfuel))
    rintro b s' (hi | ⟨hne, hb, x, hx, hs'⟩)
    · exact .inl hi
    · exact .inr ⟨hne, hb, x, List.mem_append_left _ hx, hs'⟩

end Operation

end MisakiDB
