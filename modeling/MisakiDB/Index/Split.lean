import MisakiDB.Index.Levels
/-!
# A split reaches the level above

`copyNFrom` moves children and makes the receiving page their parent; `split`
cuts a full page in two; `insertIntoParent` puts the new half into the level
above and, by induction on the levels, splits as far up as it must. Pages of the
level it works for keep their content, and no pin is left.
-/

namespace MisakiDB

open Prog PageStore

variable {K V : Type}

/-! ## Entries of an internal page -/

namespace InternalPage

theorem rdropWhile_child {X Y : List (K × Nat)} {k : K} {c : Nat} (h : c ∉ Y.map (·.2)) :
    (X ++ (k, c) :: Y).rdropWhile (fun e => e.2 ≠ c) = X ++ [(k, c)] ∧
      (X ++ (k, c) :: Y).rtakeWhile (fun e => e.2 ≠ c) = Y := by
  induction Y using List.reverseRecOn with
  | nil => simp
  | append_singleton Y e ih =>
    have he : e.2 ≠ c := fun he => h (by simp [← he])
    have hY : c ∉ Y.map (·.2) := fun hY => h (by simp at hY ⊢; exact .inl hY)
    have hcons : X ++ (k, c) :: (Y ++ [e]) = (X ++ (k, c) :: Y) ++ [e] := by simp
    rw [hcons, List.rdropWhile_concat, List.rtakeWhile_concat]
    obtain ⟨h1, h2⟩ := ih hY
    simp only [he, ne_eq, not_false_eq_true, decide_true, if_true, h1, h2, and_self]

theorem insertNodeAfter_eq {p : InternalPage K} {X Y : List (K × Nat)} {k d : K} {c n : Nat}
    (hp : p.array = X ++ (k, c) :: Y) (h : c ∉ Y.map (·.2)) :
    p.insertNodeAfter c d n = some { p with array := X ++ (k, c) :: (d, n) :: Y } := by
  obtain ⟨h1, h2⟩ := rdropWhile_child (X := X) (k := k) h
  rw [insertNodeAfter, hp, h1, h2]
  cases X <;> simp

/-! ## Adopting children -/

variable {s : IndexStore K V}

/-- The child is adopted, and an unpin leaves the pins that were. -/
theorem adopt_spec {this child : Nat} {p : InternalPage K} {g : IndexPage K V}
    (hp : s.page this = some (.internal p)) (hc : s.page child = some g) :
    wp exec (adopt this child) (fun _ s' => s'.page = Function.update s.page child
      (some (g.setParentPageID (some p.pageID))) ∧ 0 < s'.pins child ∧
      (s'.setPins child (s'.pins child - 1)).pins = s.pins ∧ s'.member = s.member) s := by
  simp [adopt, hp, hc, setPage]

/-- A child that knows its id is unpinned by it. -/
theorem adopt_own_spec {this child : Nat} {p : InternalPage K} {n : BPlusTreePage}
    (hp : s.page this = some (.internal p))
    (hc : (s.page child).bind IndexFilePage.node = some n) (hid : n.pageID = child) :
    wp exec (do adopt this child; unpinPage (← getNode child).pageID true) (fun _ s' =>
      s'.page = Function.update s.page child ((s.page child).map (IndexFilePage.setParentPageID (some p.pageID))) ∧
      s'.pins = s.pins ∧ s'.member = s.member) s := by
  obtain ⟨g, hg, hn⟩ := Option.bind_eq_some_iff.1 hc
  rw [wp_bind]
  apply wp_conseq (adopt_spec hp hg)
  rintro - s1 ⟨h1, hpin, hpins, hmem⟩
  simp only [wp_bind, wp_getNode, wp_unpinPage, h1, Function.update_self, Option.bind_some, node_setParentPageID hn]
  refine ⟨_, rfl, ?_⟩
  simp only [hid]
  refine ⟨hpin, ?_, hpins, hmem⟩
  rw [setPins_page, h1, hg]
  rfl

section
variable {this : Nat} {p : InternalPage K} {e : K × Nat} {n : BPlusTreePage}

theorem copyLastFrom_spec (hp : s.page this = some (.internal p)) (hne : e.2 ≠ this)
    (hc : (s.page e.2).bind IndexFilePage.node = some n) (hid : n.pageID = e.2) :
    wp exec (copyLastFrom this e) (fun _ s' =>
      s'.page = Function.update (Function.update s.page this (some (.internal (p.append e)))) e.2
        ((s.page e.2).map (IndexFilePage.setParentPageID (some p.pageID))) ∧
      s'.pins = s.pins ∧ s'.member = s.member) s := by
  simp only [copyLastFrom, wp_bind, wp_getInternal, hp, Option.some.injEq, IndexFilePage.internal.injEq,
    exists_eq_left', wp_setInternal]
  refine ⟨⟨_, rfl⟩, ?_⟩
  have h := adopt_own_spec (s := s.setPage this (.internal (p.append e))) (p := p.append e)
    (Function.update_self this _ s.page)
    (by simpa [hne] using hc) hid
  simpa [wp_bind, hne, append] using h

theorem copyFirstFrom_spec (hp : s.page this = some (.internal p)) (hne : e.2 ≠ this)
    (hc : (s.page e.2).bind IndexFilePage.node = some n) (hid : n.pageID = e.2) :
    wp exec (copyFirstFrom this e) (fun _ s' =>
      s'.page = Function.update (Function.update s.page this (some (.internal (p.prepend e)))) e.2
        ((s.page e.2).map (IndexFilePage.setParentPageID (some p.pageID))) ∧
      s'.pins = s.pins ∧ s'.member = s.member) s := by
  simp only [copyFirstFrom, wp_bind, wp_getInternal, hp, Option.some.injEq, IndexFilePage.internal.injEq,
    exists_eq_left', wp_setInternal]
  refine ⟨⟨_, rfl⟩, ?_⟩
  have h := adopt_own_spec (s := s.setPage this (.internal (p.prepend e))) (p := p.prepend e)
    (Function.update_self this _ s.page)
    (by simpa [hne] using hc) hid
  simpa [wp_bind, hne, prepend] using h

end

theorem copyNFrom_spec {this : Nat} {p : InternalPage K} (es : List (K × Nat))
    (hp : s.page this = some (.internal p)) (hn : (this :: es.map (·.2)).Nodup)
    (hc : ∀ c ∈ es.map (·.2), ∃ pg, s.page c = some pg) :
    wp exec (copyNFrom this es) (fun _ s' => s'.page this = some (.internal { p with array := p.array ++ es }) ∧
      (∀ c ∈ es.map (·.2), s'.page c = (s.page c).map (IndexFilePage.setParentPageID (some p.pageID))) ∧
      (∀ x, x ≠ this → x ∉ es.map (·.2) → s'.page x = s.page x) ∧ s'.pins = s.pins ∧ s'.member = s.member) s := by
  induction es generalizing s p with
  | nil => simp [copyNFrom, hp]
  | cons e es ih =>
    simp only [List.map_cons, List.nodup_cons, List.mem_cons, not_or] at hn
    obtain ⟨⟨hne, hthis⟩, hce, hn'⟩ := hn
    obtain ⟨pg, hpg⟩ := hc e.2 (by simp)
    have hne' : e.2 ≠ this := Ne.symm hne
    simp only [copyNFrom, wp_bind, wp_getInternal, hp, Option.some.injEq, IndexFilePage.internal.injEq, exists_eq_left',
      wp_setInternal]
    refine ⟨⟨_, rfl⟩, wp_conseq (adopt_spec (g := pg) (p := p.append e) (by simp) (by simp [hne', hpg])) ?_⟩
    rintro - s1 ⟨h1, hpin, hpins, hmem⟩
    refine wp_unpinPage.2 ⟨hpin, ?_⟩
    -- the children still to come are as they were
    have hchild : ∀ c ∈ es.map (·.2), s1.page c = s.page c := by
      intro c hc
      have h1' : c ≠ e.2 := by rintro rfl; exact hce hc
      have h2' : c ≠ this := by rintro rfl; exact hthis hc
      simp [h1, h1', h2']
    refine wp_conseq (ih (p := p.append e) (by simp [h1, hne]) ?_ ?_) ?_
    · exact List.nodup_cons.2 ⟨hthis, hn'⟩
    · intro c hcm
      rw [setPins_page, hchild c hcm]
      exact hc c (by simp at hcm ⊢; exact .inr hcm)
    · rintro - s2 ⟨h2, hkids, hrest, hpins2, hmem2⟩
      refine ⟨by rw [h2]; simp [append], ?_, ?_, hpins2.trans hpins, hmem2.trans hmem⟩
      · intro c hc
        rcases eq_or_ne c e.2 with rfl | hne2
        · rw [hrest _ hne' hce, setPins_page, h1]
          simp [hpg, append]
        · have hcm : c ∈ es.map (·.2) := by
            simp only [List.map_cons, List.mem_cons] at hc
            exact hc.resolve_left hne2
          rw [hkids c hcm, setPins_page, hchild c hcm]
          rfl
      · intro x hx hxe
        simp only [List.map_cons, List.mem_cons, not_or] at hxe
        rw [hrest x hx hxe.2, setPins_page, h1]
        simp [hxe.1, hx]

end InternalPage

/-! ## Splits -/

section Split
variable {s : IndexStore K V} {used free : List Nat} {h : IndexFileHeader}

/-- An internal page is cut in two; the children of the right half change parent. -/
theorem split_internal_spec {x : Nat} {p : InternalPage K} (ha : Alloc s used free h)
    (hp : s.page x = some (.internal p)) (hfull : p.maxSize ≤ p.array.length) (hx : x ∈ used)
    (hn : (x :: p.array.map (·.2)).Nodup) (hc : ∀ c ∈ p.array.map (·.2), c ∈ used ∧ ∃ pg, s.page c = some pg) :
    wp exec (BPlusTree.split .InternalPage x) (fun q s' => ∃ free' h', q ∉ used ∧ q ≠ 0 ∧ s.pins q = 0 ∧
      s'.page x = some (.internal { p with array := p.array.take ((p.array.length + 1) / 2) }) ∧
      s'.page q = some (.internal ⟨q, p.parentPageID, internalMax s, p.array.drop ((p.array.length + 1) / 2)⟩) ∧
      (∀ c ∈ (p.array.drop ((p.array.length + 1) / 2)).map (·.2),
        s'.page c = (s.page c).map (IndexFilePage.setParentPageID (some q))) ∧
      (∀ y, y ≠ 0 → y ≠ x → y ≠ q → y ∉ (p.array.drop ((p.array.length + 1) / 2)).map (·.2) →
        s'.page y = s.page y) ∧
      s'.pins = Function.update s.pins q 1 ∧ s'.member = s.member ∧ Alloc s' (q :: used) free' h') s := by
  have hx0 := ha.ne_zero hx
  have hfull' : ¬ p.array.length < p.maxSize := by omega
  set half := (p.array.length + 1) / 2 with hhalf
  have hsub : ∀ c ∈ (p.array.drop half).map (·.2), c ∈ p.array.map (·.2) := by
    intro c hc
    exact ((List.drop_sublist half p.array).map _).subset hc
  simp only [BPlusTree.split, wp_bind, wp_getNode, hp, Option.bind_some, IndexFilePage.node_internal, Option.some.injEq,
    exists_eq_left', wp_ite, if_neg hfull']
  apply wp_conseq (newIndexPage_spec ha)
  rintro q s1 ⟨free', h', hq, hq0, hpin, h1, hpins, hmem, ha1⟩
  have hxq : x ≠ q := by rintro rfl; exact hq hx
  have hcq : ∀ c ∈ p.array.map (·.2), c ≠ q ∧ c ≠ x ∧ c ≠ 0 := by
    intro c hcm
    refine ⟨?_, ?_, ha.ne_zero (hc c hcm).1⟩
    · rintro rfl
      exact hq (hc c hcm).1
    · rintro rfl
      exact (List.nodup_cons.1 hn).1 hcm
  simp only [wp_bind, wp_getMember, wp_setInternal, wp_pure, InternalPage.moveHalfTo, wp_getInternal, setPage_page,
    Function.update_of_ne hxq, h1, Function.update_of_ne hx0, hp, Option.some.injEq, IndexFilePage.internal.injEq,
    exists_eq_left']
  refine ⟨⟨_, Function.update_self ..⟩, ?_⟩
  -- the new page adopts the second half of the children
  refine wp_conseq (InternalPage.copyNFrom_spec (p := InternalPage.init q p.parentPageID s1.member.internalMaxSize)
    (p.array.drop half) (by simp) ?_ ?_) ?_
  · refine List.nodup_cons.2 ⟨fun hqm => (hcq q (hsub q hqm)).1 rfl, ?_⟩
    exact (List.nodup_cons.1 hn).2.sublist ((List.drop_sublist half p.array).map _)
  · intro c hcm
    obtain ⟨hcq1, hcx, hc0⟩ := hcq c (hsub c hcm)
    obtain ⟨pg, hpg⟩ := (hc c (hsub c hcm)).2
    exact ⟨pg, by simp [hcq1, hc0, h1, hpg]⟩
  · rintro - s2 ⟨h2, hkids, hrest, hpins2, hmem2⟩
    have hxm : x ∉ (p.array.drop half).map (·.2) := fun hxm => (hcq x (hsub x hxm)).2.1 rfl
    have hs2x : s2.page x = some (.internal p) := by
      rw [hrest x hxq hxm]
      simp [h1, hxq, hx0, hp]
    refine ⟨⟨_, hs2x⟩, free', h', hq, hq0, hpin, ?_, ?_, ?_, ?_, ?_, ?_, ?_⟩
    · simp [InternalPage.setSize, InternalPage.getSize, hhalf]
    · simp only [Function.update_of_ne (Ne.symm hxq), h2, InternalPage.init, internalMax, hmem, List.nil_append]
    · intro c hcm
      obtain ⟨hcq1, hcx, hc0⟩ := hcq c (hsub c hcm)
      simp [hcx, hkids c hcm, hcq1, hc0, h1, InternalPage.init]
    · intro y hy0 hyx hyq hym
      simp [hyx, hrest y hyq hym, hyq, h1, hy0]
    · simpa [hpins2] using hpins
    · simpa [hmem2] using hmem
    · refine ha1.frame (by simp [hmem2]) ?_ (by simp [hpins2])
      intro y hy
      simp only [List.mem_cons, not_or] at hy
      have hyx : y ≠ x := by rintro rfl; exact hy.2 hx
      have hym : y ∉ (p.array.drop half).map (·.2) := fun hym => hy.2 (hc y (hsub y hym)).1
      simp [hyx, hrest y hy.1 hym, hy.1]

end Split

/-! ## The levels above after an insertion -/

variable [Inhabited K]

/-- After a call for the level `L`: the level reads `L'`, the levels above lead to
it, and only they, the header and new pages have changed. -/
def Grown (s s' : IndexStore K V) (L' : Level K) (Ls : List (Level K)) (used : List Nat) : Prop :=
  ∃ Ls' fresh free' h', Above s' L' Ls' ∧ Alloc s' (fresh ++ used) free' h' ∧
    (allIds Ls').Perm (fresh ++ allIds Ls) ∧ Changes s s' (ids L') (0 :: (fresh ++ allIds Ls)) ∧ s'.pins = s.pins

section Parent
variable {s : IndexStore K V} {used free : List Nat} {h : IndexFileHeader}

/-- The call for two pages without a parent: they get a new root above them. -/
theorem insertIntoParent_newRoot {fuel old new : Nat} {key : K} (hold : HasParent s old none)
    (hnew : HasParent s new none) (ha : Alloc s used free h) (ho : old ∈ used) (hn : new ∈ used) (hne : new ≠ old) :
    wp exec (BPlusTree.insertIntoParent (fuel + 1) old key new) (fun _ s' => ∃ q free' h', q ∉ used ∧ q ≠ 0 ∧
      s'.page q = some (.internal ⟨q, none, internalMax s, [(default, old), (key, new)]⟩) ∧
      (∀ x, x = old ∨ x = new → s'.page x = (s.page x).map (IndexFilePage.setParentPageID (some q))) ∧
      (∀ x, x ≠ 0 → x ≠ q → x ≠ old → x ≠ new → s'.page x = s.page x) ∧ s'.pins = s.pins ∧
      s'.member = { s.member with rootPageID := some q } ∧ Alloc s' (q :: used) free' h') s := by
  obtain ⟨no, hno, hido, hpo⟩ := hold
  obtain ⟨nn, hnn, hidn, hpn⟩ := hnew
  obtain ⟨po, hpo', hno'⟩ := Option.bind_eq_some_iff.1 hno
  obtain ⟨pn, hpn', hnn'⟩ := Option.bind_eq_some_iff.1 hnn
  simp only [BPlusTree.insertIntoParent, wp_bind, wp_getNode, hno, hnn, Option.some.injEq, exists_eq_left', hpo]
  apply wp_conseq (newIndexPage_spec ha)
  rintro q s1 ⟨free', h', hq, hq0, hpin, h1, hpins, hmem, ha1⟩
  have hoq : old ≠ q := by rintro rfl; exact hq ho
  have hnq : new ≠ q := by rintro rfl; exact hq hn
  have ho0 := ha.ne_zero ho
  have hn0 := ha.ne_zero hn
  simp only [wp_getMember, wp_require, InternalPage.populateNewRoot, InternalPage.init, InternalPage.getSize,
    List.length_nil, and_self, if_true, Option.some.injEq, exists_eq_left', wp_setInternal, wp_setParentPageID,
    setPage_page, h1, Function.update_of_ne hoq, Function.update_of_ne ho0, hpo', Function.update_of_ne hne,
    Function.update_of_ne hnq, Function.update_of_ne hn0, hpn', wp_setRootPageID, wp_updateRootPageID,
    wp_unpinPage, withMember_page, withMember_pins, withMember_member, setPage_pins, setPage_member]
  have hp0 : ∀ pg1 pg2 pg3 : IndexPage K V, Function.update (Function.update (Function.update (Function.update
      (Function.update s.page 0 (some (.header h'))) q (some .zero)) q (some pg1)) old (some pg2)) new (some pg3) 0 =
      some (.header h') := by
    intro pg1 pg2 pg3
    simp [Ne.symm hn0, Ne.symm ho0, Ne.symm hq0]
  refine ⟨⟨_, Function.update_self ..⟩, h', hp0 _ _ _, by simp [hpins], ?_⟩
  refine ⟨q, free', { h' with rootPageID := some q }, hq, hq0, ?_, ?_, ?_, ?_, by simp [hmem], ?_⟩
  · simp [Ne.symm hoq, Ne.symm hnq, hq0, hido, hidn, internalMax, hmem]
  · rintro x (rfl | rfl)
    · simp [ho0, Ne.symm hne, hpo']
    · simp [hn0, hpn']
  · intro x h0 hxq hxo hxn
    simp [h0, hxq, hxo, hxn, h1]
  · funext x
    rcases eq_or_ne x q with rfl | hx <;> simp [*]
  · refine ((ha1.frame (rfl : (((s1.setPage q _).setPage old _).setPage new _).member.rootPageID = _) ?_ fun _ _ _ => rfl).setRoot
      (some q)).frame rfl (fun _ _ => rfl) ?_
    · intro x hx
      simp only [List.mem_cons, not_or] at hx
      have hxo : x ≠ old := by rintro rfl; exact hx.2 ho
      have hxn : x ≠ new := by rintro rfl; exact hx.2 hn
      simp [hx.1, hxo, hxn]
    · intro x _ hx
      simp [List.mem_cons, not_or] at hx
      simp [hx.1]

/-- The split of a root leaves the two halves as the level below the new root. -/
theorem insertIntoParent_root {fuel old new : Nat} {key : K} {L : Level K} (hL : L = [(⊥, old)])
    (hold : HasParent s old none) (hnew : HasParent s new none) (ha : Alloc s used free h)
    (ho : old ∈ used) (hn : new ∈ used) (hne : new ≠ old) :
    wp exec (BPlusTree.insertIntoParent (fuel + 1) old key new)
      (fun _ s' => Grown s s' [(⊥, old), ((key : WithBot K), new)] [] used) s := by
  apply wp_conseq (insertIntoParent_newRoot hold hnew ha ho hn hne)
  rintro - s' ⟨q, free', h', hq, hq0, hroot, hhalves, hrest, hpins, hmem, ha'⟩
  have hset : ∀ x, x = old ∨ x = new → HasParent s' x (some q) := by
    intro x hx
    have hpar : HasParent s x none := by
      rcases hx with rfl | rfl
      · exact hold
      · exact hnew
    obtain ⟨n, hn, -⟩ := id hpar
    obtain ⟨pg, hpg, -⟩ := Option.bind_eq_some_iff.1 hn
    apply hpar.set hpg
    rw [hhalves x hx, hpg]
    rfl
  refine ⟨[[(⊥, q)]], [q], free', h', ⟨?_, ?_, ⟨q, rfl, by rw [hmem], ?_⟩⟩, ha', by simp, ?_, hpins⟩
  · rw [below_cons, below_nil, children_eq (n := (⊥, q)) hroot]
    rfl
  · intro n hn'
    rw [List.mem_singleton] at hn'
    subst hn'
    refine ⟨_, hroot, rfl, by simp [internalMax, hmem], by simp [InternalFits, internalMax], fun e he => ?_,
      by simp [FirstKey]⟩
    simp only [List.mem_cons, List.not_mem_nil, or_false] at he
    rcases he with rfl | rfl
    · exact hset old (.inl rfl)
    · exact hset new (.inr rfl)
  · exact (hasParent_internal hroot).2 ⟨rfl, rfl⟩
  · refine ⟨?_, ?_, by simp [hmem], by simp [hmem]⟩
    · intro x hxm hxr
      simp at hxm hxr
      exact hrest x hxr.1 hxr.2 hxm.1 hxm.2
    · intro x hxr
      simp at hxr
      by_cases hx : x = old ∨ x = new
      · rw [SameBody, hhalves x hx]
        cases s.page x <;> simp
      · rw [not_or] at hx
        exact .of_eq (hrest x hxr.1 hxr.2 hx.1 hx.2)

theorem perm_grown (A B F R : List Nat) (m q : Nat) :
    (A ++ m :: q :: B ++ (F ++ R)).Perm (F ++ [q] ++ (A ++ m :: B ++ R)) := by
  rw [List.perm_iff_count]
  intro x
  simp only [List.count_append, List.count_cons, List.count_nil]
  omega

/-- The new half comes after the old one among the children of their parent. -/
theorem nodup_place {U X Y W R : List Nat} {o n : Nat} (h : (n :: (U ++ (X ++ [o]) ++ (Y ++ W)) ++ R).Nodup) :
    (U ++ ((X ++ o :: n :: Y) ++ (W ++ R))).Nodup := by
  refine (List.Perm.nodup_iff ?_).1 h
  have hp : (U ++ (X ++ [o]) ++ n :: (Y ++ W ++ R)).Perm (n :: (U ++ (X ++ [o]) ++ (Y ++ W ++ R))) := List.perm_middle
  simpa using hp.symm

/-- The pages around `m`: its children `P`, the children `U`, `W` of its siblings
`A`, `B`, and the levels `R` above are all different. -/
theorem nodup_around {U P W A B R : List Nat} {m : Nat} (h : (U ++ (P ++ (W ++ (A ++ m :: (B ++ R))))).Nodup) :
    (m :: P).Nodup ∧ (∀ x ∈ A ++ B, x ≠ m ∧ x ∉ P) ∧
    (∀ x ∈ U ++ W, x ≠ m ∧ x ∉ P ∧ x ∉ A ∧ x ∉ B ∧ x ∉ R) ∧ (∀ x ∈ R, x ≠ m ∧ x ∉ P) ∧
    (A ++ m :: (B ++ R)).Nodup := by
  grind [List.nodup_append]

/-- The page `m` stands between `A` and `B` in the lowest of the levels above and is
about to have the entries `es`; every page around it is in use and occurs once. -/
structure Spot (s : IndexStore K V) (used : List Nat) (A B : Level K) (m : Node K) (p : InternalPage K)
    (es : List (K × Nat)) (Ls : List (Level K)) : Prop where
  linked : Linked s (fun _ => InternalFits s (Ls = [])) (A ++ m :: B)
  above : Above s (A ++ m :: B) Ls
  page : s.page m.2 = some (.internal p)
  kids : ∀ e ∈ es, HasParent s e.2 (some m.2)
  first : FirstKey m.1 es
  nodup : (ids (below s A) ++ (es.map (·.2) ++ (ids (below s B) ++ (ids A ++ m.2 :: (ids B ++ allIds Ls))))).Nodup
  used : ∀ x ∈ ids (below s A) ++ (es.map (·.2) ++ (ids (below s B) ++ (ids A ++ m.2 :: (ids B ++ allIds Ls)))),
    x ∈ used

namespace Spot
variable {A B : Level K} {m : Node K} {p : InternalPage K} {es : List (K × Nat)} {Ls : List (Level K)}

theorem pageID (sp : Spot s used A B m p es Ls) : p.pageID = m.2 ∧ p.maxSize = internalMax s ∧
    InternalFits s (Ls = []) p.array.length := by
  obtain ⟨q, hq, hid, hmax, hfit, -⟩ := sp.linked m (by simp)
  obtain rfl : q = p := by simpa [sp.page] using hq.symm
  exact ⟨hid, hmax, hfit⟩

theorem mem_used (sp : Spot s used A B m p es Ls) : m.2 ∈ used := sp.used _ (by simp)

theorem ne_page (sp : Spot s used A B m p es Ls) {x : Nat} (hx : x ∉ used) : x ≠ m.2 := by
  rintro rfl
  exact hx sp.mem_used

/-- The level above with the new entries, when they fit. -/
theorem place (sp : Spot s used A B m p es Ls) {s' : IndexStore K V} (hfits : InternalFits s (Ls = []) es.length)
    (hs' : s'.page = Function.update s.page m.2 (some (.internal { p with array := es })))
    (hmem : s'.member = s.member) :
    Above s' (below s A ++ row m.1 es ++ below s B) ((A ++ m :: B) :: Ls) := by
  obtain ⟨hmP, hside, hbelow, hup, -⟩ := nodup_around sp.nodup
  apply Above.place sp.linked sp.above sp.page hs' hmem rfl rfl rfl hfits sp.kids sp.first
  intro x hx
  simp only [List.mem_append] at hx
  rcases hx with ((hx | hx) | hx) | hx
  · rintro rfl
    exact (List.nodup_cons.1 hmP).1 hx
  · exact (hbelow x (List.mem_append.2 hx)).1
  · exact (hside x (List.mem_append.2 hx)).1
  · exact (hup x hx).1

/-- The state after a page with the entries `left ++ right` was cut in two, the
right half going to the new page `q`. -/
structure Cut (s s2 : IndexStore K V) (used : List Nat) (m : Node K) (p : InternalPage K)
    (left right : List (K × Nat)) (q : Nat) : Prop where
  fresh : q ∉ used
  left_page : s2.page m.2 = some (.internal { p with array := left })
  right_page : s2.page q = some (.internal ⟨q, p.parentPageID, internalMax s, right⟩)
  moved : ∀ c ∈ right.map (·.2), s2.page c = (s.page c).map (IndexFilePage.setParentPageID (some q))
  rest : ∀ y, y ≠ 0 → y ≠ m.2 → y ≠ q → y ∉ right.map (·.2) → s2.page y = s.page y
  member : s2.member = s.member

omit [Inhabited K] in
theorem Cut.rest_used {s2 : IndexStore K V} {left right : List (K × Nat)} {q : Nat}
    (hc : Cut s s2 used m p left right q) (ha : Alloc s used free h) {x : Nat} (hx : x ∈ used) (hm : x ≠ m.2)
    (hr : x ∉ right.map (·.2)) : s2.page x = s.page x :=
  hc.rest x (ha.ne_zero hx) hm (by rintro rfl; exact hc.fresh hx) hr

/-- What the call for the next level up needs. -/
theorem cut_above {left right : List (K × Nat)} (sp : Spot s used A B m p (left ++ right) Ls)
    {s2 : IndexStore K V} {q : Nat}
    (hc : Cut s s2 used m p left right q) (ha : Alloc s used free h) :
    Above s2 (A ++ m :: B) Ls ∧ (q :: ids (A ++ m :: B) ++ allIds Ls).Nodup ∧
      ∀ x ∈ q :: ids (A ++ m :: B) ++ allIds Ls, x ∈ q :: used := by
  obtain ⟨-, hside, -, hup, hnd⟩ := nodup_around sp.nodup
  have hright : ∀ x, x ∈ right.map (·.2) → x ∈ (left ++ right).map (·.2) := fun x hx => by
    rw [List.map_append]
    exact List.mem_append_right _ hx
  have hsub : ∀ x ∈ ids A ++ m.2 :: (ids B ++ allIds Ls), x ∈ used := fun x hx =>
    sp.used x (List.mem_append_right _ (List.mem_append_right _ (List.mem_append_right _ hx)))
  have hids : ids (A ++ m :: B) ++ allIds Ls = ids A ++ m.2 :: (ids B ++ allIds Ls) := by simp
  refine ⟨?_, ?_, ?_⟩
  · refine sp.above.congr (fun x hx => ?_) (by rw [hc.member]) (by rw [hc.member]) fun x hx a hpa => ?_
    · exact hc.rest_used ha (hsub x (by simp [hx])) (hup x hx).1 fun hr => (hup x hx).2 (hright x hr)
    · rcases eq_or_ne x m.2 with rfl | hxm
      · rw [hasParent_internal sp.page] at hpa
        rw [hasParent_internal hc.left_page]
        exact hpa
      · have hx' : x ∈ ids A ++ ids B := by
          simp only [List.map_append, List.map_cons, List.mem_append, List.mem_cons] at hx ⊢
          tauto
        refine hpa.congr (hc.rest_used ha (hsub x ?_) hxm fun hr => (hside x hx').2 (hright x hr))
        simp only [List.mem_append, List.mem_cons] at hx' ⊢
        tauto
  · rw [List.cons_append, hids]
    exact List.nodup_cons.2 ⟨fun hqm => hc.fresh (hsub q hqm), hnd⟩
  · rw [List.cons_append, hids]
    intro x hx
    rcases List.mem_cons.1 hx with rfl | hx
    · exact List.mem_cons_self
    · exact List.mem_cons_of_mem _ (hsub x hx)

/-- After the cut, the call for the next level up has changed only that level's
parents, the levels above it and the pages `fresh`. -/
structure Climbed (s2 s4 : IndexStore K V) (used fresh : List Nat) (A B : Level K) (m : Node K) (q : Nat)
    (Ls : List (Level K)) : Prop where
  changes : Changes s2 s4 (ids A ++ m.2 :: q :: ids B) (0 :: (fresh ++ allIds Ls))
  used_fresh : ∀ x ∈ q :: used, x ≠ 0 ∧ x ∉ fresh

section Climbed
variable {left R : List (K × Nat)} {e : K × Nat} {q : Nat} {fresh : List Nat} {s2 s4 : IndexStore K V}

omit [Inhabited K] in
/-- Pages in use outside the levels above keep their content. -/
theorem Climbed.body (hcl : Climbed s2 s4 used fresh A B m q Ls) {x : Nat} (hx : x ∈ q :: used) (hl : x ∉ allIds Ls) :
    SameBody s2 s4 x := by
  apply hcl.changes.body x
  simp only [List.mem_cons, List.mem_append, not_or]
  exact ⟨(hcl.used_fresh x hx).1, (hcl.used_fresh x hx).2, hl⟩

omit [Inhabited K] in
/-- Pages in use below the level are not touched at all. -/
theorem Climbed.page (hcl : Climbed s2 s4 used fresh A B m q Ls) {x : Nat} (hx : x ∈ used) (hl : x ∉ allIds Ls)
    (hA : x ∉ ids A) (hm : x ≠ m.2) (hq : x ≠ q) (hB : x ∉ ids B) : s4.page x = s2.page x := by
  have hf := hcl.used_fresh x (List.mem_cons_of_mem _ hx)
  refine hcl.changes.page x ?_ ?_
  · simp only [List.mem_append, List.mem_cons, not_or]
    exact ⟨hA, hm, hq, hB⟩
  · simp only [List.mem_cons, List.mem_append, not_or]
    exact ⟨hf.1, hf.2, hl⟩

theorem kid_apart (sp : Spot s used A B m p es Ls) {x : Nat} (hx : x ∈ es.map (·.2)) :
    x ∈ used ∧ x ∉ allIds Ls ∧ x ∉ ids A ∧ x ≠ m.2 ∧ x ∉ ids B := by
  obtain ⟨hmP, hside, hbelow, hup, hnd⟩ := nodup_around sp.nodup
  refine ⟨sp.used x (List.mem_append_right _ (List.mem_append_left _ hx)), fun hl => (hup x hl).2 hx, ?_, ?_, ?_⟩
  · exact fun hA => (hside x (List.mem_append_left _ hA)).2 hx
  · rintro rfl
    exact (List.nodup_cons.1 hmP).1 hx
  · exact fun hB => (hside x (List.mem_append_right _ hB)).2 hx

theorem side_apart (sp : Spot s used A B m p es Ls) {x : Nat} (hx : x ∈ ids A ++ ids B) :
    x ∈ used ∧ x ∉ allIds Ls ∧ x ≠ m.2 ∧ x ∉ es.map (·.2) := by
  obtain ⟨hmP, hside, hbelow, hup, hnd⟩ := nodup_around sp.nodup
  refine ⟨sp.used x ?_, ?_, hside x hx⟩
  · simp only [List.mem_append, List.mem_cons] at hx ⊢
    tauto
  · intro hl
    have hnd' := List.nodup_append.1 hnd
    rcases List.mem_append.1 hx with hA | hB
    · exact hnd'.2.2 x hA x (by simp [hl]) rfl
    · exact (List.nodup_append.1 (List.nodup_cons.1 hnd'.2.1).2).2.2 x hB x hl rfl

/-- The two halves are linked, and the level reads on as it was. -/
theorem cut_linked (sp : Spot s used A B m p (left ++ e :: R) Ls) (hc : Cut s s2 used m p left (e :: R) q)
    (ha : Alloc s used free h) (hcl : Climbed s2 s4 used fresh A B m q Ls) (fits : Nat → Nat → Prop)
    (hleft : ∀ x, fits x left.length) (hright : ∀ x, fits x (e :: R).length) (hl0 : left ≠ [])
    (hfits : ∀ x ∈ ids A ++ ids B, ∀ size, InternalFits s (Ls = []) size → fits x size) :
    Linked s4 fits (A ++ [m, ((e.1 : WithBot K), q)] ++ B) ∧ below s4 (A ++ [m, ((e.1 : WithBot K), q)] ++ B) =
      below s A ++ row m.1 (left ++ e :: R) ++ below s B := by
  obtain ⟨hmP, -, hbelow, hup, -⟩ := nodup_around sp.nodup
  obtain ⟨hid, hmax, -⟩ := sp.pageID
  have huq : ∀ x ∈ used, x ≠ q := by
    rintro x hx rfl
    exact hc.fresh hx
  have hmup : m.2 ∉ allIds Ls := fun hm => (hup _ hm).1 rfl
  have hqup : q ∉ allIds Ls := fun hq => hc.fresh (sp.used q (by simp [hq]))
  have hmem : s4.member.internalMaxSize = s.member.internalMaxSize := by rw [hcl.changes.internalMax, hc.member]
  have hmax4 : internalMax s4 = internalMax s := by rw [internalMax, internalMax, hmem]
  have hdisj := List.nodup_append.1 (by simpa using (List.nodup_cons.1 hmP).2 :
    (left.map (·.2) ++ (e :: R).map (·.2)).Nodup)
  obtain ⟨a1, h4m⟩ := (hcl.body (List.mem_cons_of_mem _ sp.mem_used) hmup).internal hc.left_page
  obtain ⟨a2, h4q⟩ := (hcl.body List.mem_cons_self hqup).internal hc.right_page
  have hsides : ∀ x ∈ ids A ++ ids B, SameBody s s4 x := by
    intro x hx
    obtain ⟨hxu, hxl, hxm, hxe⟩ := sp.side_apart hx
    have hr : x ∉ (e :: R).map (·.2) := fun hr => hxe (by rw [List.map_append]; exact List.mem_append_right _ hr)
    exact (SameBody.of_eq (hc.rest_used ha hxu hxm hr)).trans (hcl.body (List.mem_cons_of_mem _ hxu) hxl)
  have hkeep : ∀ x ∈ ids (below s A) ++ ids (below s B), ∀ a, HasParent s x a → HasParent s4 x a := by
    intro x hx a hpa
    have hxu : x ∈ used := sp.used x (by simp only [List.mem_append] at hx ⊢; tauto)
    obtain ⟨hxm, hxP, hxA, hxB, hxl⟩ := hbelow x hx
    have hr : x ∉ (e :: R).map (·.2) := fun hr => hxP (by rw [List.map_append]; exact List.mem_append_right _ hr)
    exact (hpa.congr (hc.rest_used ha hxu hxm hr)).congr (hcl.page hxu hxl hxA hxm (huq x hxu) hxB)
  -- the moved children name the new page as parent, the others the old one
  have hhalves : Linked s4 fits [m, ((e.1 : WithBot K), q)] := by
    intro n hn
    rw [List.mem_cons, List.mem_singleton] at hn
    rcases hn with rfl | rfl
    · refine ⟨_, h4m, hid, by rw [hmax4]; exact hmax, hleft _, fun f hf => ?_, (FirstKey.append hl0 _).1 sp.first⟩
      have hfm : f.2 ∈ left.map (·.2) := List.mem_map_of_mem hf
      obtain ⟨h1, h2, h3, h4, h5⟩ := sp.kid_apart (x := f.2) (by rw [List.map_append]; exact List.mem_append_left _ hfm)
      refine ((sp.kids f (List.mem_append_left _ hf)).congr (hc.rest_used ha h1 h4 fun hr => ?_)).congr
        (hcl.page h1 h2 h3 h4 (huq _ h1) h5)
      exact hdisj.2.2 _ hfm _ hr rfl
    · refine ⟨_, h4q, rfl, hmax4.symm, hright _, fun f hf => ?_, FirstKey.own e R⟩
      have hfm : f.2 ∈ (e :: R).map (·.2) := List.mem_map_of_mem hf
      obtain ⟨h1, h2, h3, h4, h5⟩ := sp.kid_apart (x := f.2) (by rw [List.map_append]; exact List.mem_append_right _ hfm)
      have hk := sp.kids f (List.mem_append_right _ hf)
      obtain ⟨nf, hnf, -⟩ := id hk
      obtain ⟨pg, hpg, -⟩ := Option.bind_eq_some_iff.1 hnf
      apply hk.set hpg
      rw [hcl.page h1 h2 h3 h4 (huq _ h1) h5, hc.moved _ hfm, hpg]
      rfl
  obtain ⟨hlink, hbel⟩ := sp.linked.splice hsides hmem hkeep hfits hhalves
  refine ⟨hlink, ?_⟩
  rw [hbel, below_cons, below_cons, below_nil, children_eq h4m, children_eq h4q, row_append hl0, row_own,
    List.append_nil]

omit [Inhabited K] in
theorem cut_changes (hc : Cut s s2 used m p left (e :: R) q)
    (hcl : Climbed s2 s4 used fresh A B m q Ls) {M : List Nat} (hM : ∀ x ∈ (e :: R).map (·.2), x ∈ M) :
    Changes s s4 M (0 :: (fresh ++ [q] ++ allIds ((A ++ m :: B) :: Ls))) := by
  have hqr : ∀ x, x ∉ 0 :: (fresh ++ [q] ++ allIds ((A ++ m :: B) :: Ls)) →
      (x ≠ 0 ∧ x ≠ m.2 ∧ x ≠ q) ∧ x ∉ ids A ++ m.2 :: q :: ids B ∧ x ∉ 0 :: (fresh ++ allIds Ls) := by
    intro x hx
    simp only [allIds, List.flatMap_cons, List.map_append, List.map_cons, List.mem_cons, List.mem_append,
      List.not_mem_nil, not_or] at hx ⊢
    tauto
  refine ⟨fun x hxM hxR => ?_, fun x hxR => ?_, ?_, ?_⟩
  · obtain ⟨⟨h0, hm, hq⟩, hM', hR'⟩ := hqr x hxR
    rw [hcl.changes.page x hM' hR', hc.rest x h0 hm hq fun hr => hxM (hM x hr)]
  · obtain ⟨⟨h0, hm, hq⟩, hM', hR'⟩ := hqr x hxR
    refine SameBody.trans ?_ (hcl.changes.body x hR')
    by_cases hr : x ∈ (e :: R).map (·.2)
    · rw [SameBody, hc.moved x hr]
      cases s.page x <;> simp
    · exact .of_eq (hc.rest x h0 hm hq hr)
  · rw [hcl.changes.leafMax, hc.member]
  · rw [hcl.changes.internalMax, hc.member]

end Climbed

/-- After the call for the next level up, the level above leads to all the entries again. -/
theorem grown_cut {left R : List (K × Nat)} {e : K × Nat} {q : Nat} {s2 s3 s4 : IndexStore K V}
    (sp : Spot s used A B m p (left ++ e :: R) Ls) (hc : Cut s s2 used m p left (e :: R) q) (ha : Alloc s used free h)
    (hleft : InternalFits s False left.length) (hright : InternalFits s False (e :: R).length)
    (hg : Grown s2 s3 (A ++ m :: ((e.1 : WithBot K), q) :: B) Ls (q :: used)) (hp : s4.page = s3.page)
    (hm : s4.member = s3.member) (hpins : s4.pins = s.pins) :
    Grown s s4 (below s A ++ row m.1 (left ++ e :: R) ++ below s B) ((A ++ m :: B) :: Ls) used := by
  obtain ⟨Ls3, fresh, free3, h3, hab3, ha3, hperm3, hch3, hpins3⟩ := hg
  have hnd3 := (List.nodup_append.1 (List.nodup_append.1 ha3.nodup).1).2.2
  have hcl : Climbed s2 s4 used fresh A B m q Ls := by
    refine ⟨⟨fun x hM hR => ?_, fun x hR => ?_, ?_, ?_⟩, fun x hx => ⟨ha3.ne_zero (by simp at hx ⊢; tauto), ?_⟩⟩
    · rw [hp]
      exact hch3.page x (by simpa using hM) hR
    · rw [SameBody, hp]
      exact hch3.body x hR
    · rw [hm, hch3.leafMax]
    · rw [hm, hch3.internalMax]
    · exact fun hf => hnd3 x hf x hx rfl
  have hfits : ∀ size, InternalFits s False size → InternalFits s4 (Ls3 = []) size := by
    intro size hs
    rw [InternalFits, internalMax, hcl.changes.internalMax, hc.member]
    exact ⟨hs.1, fun _ => hs.2.1 not_false, hs.2.2⟩
  have hN : A ++ m :: ((e.1 : WithBot K), q) :: B = A ++ [m, ((e.1 : WithBot K), q)] ++ B := by simp
  obtain ⟨hlink, hbel⟩ := sp.cut_linked hc ha hcl (fun _ => InternalFits s4 (Ls3 = [])) (fun _ => hfits _ hleft)
    (fun _ => hfits _ hright) (by rintro rfl; simp [InternalFits] at hleft) (by
      intro x hx size hs
      refine hfits size ⟨hs.1, fun _ => hs.2.1 ?_, hs.2.2⟩
      rintro rfl
      -- a level with nothing above it holds the root alone
      obtain ⟨r, hr, -⟩ := sp.above
      have := congrArg List.length hr
      rcases A with _ | ⟨_, A⟩
      · rcases B with _ | ⟨_, B⟩
        · simp at hx
        · simp at this
      · simp at this)
  refine ⟨(A ++ m :: ((e.1 : WithBot K), q) :: B) :: Ls3, fresh ++ [q], free3, h3, ⟨?_, ?_, ?_⟩, ?_, ?_, ?_, hpins⟩
  · rw [hN, hbel]
  · rw [hN]
    exact hlink
  · exact hab3.congr (fun x _ => by rw [hp]) (by rw [hm]) (by rw [hm]) fun x _ a hpa => hpa.congr (by rw [hp])
  · rw [List.append_assoc]
    refine ha3.frame (by rw [hm]) (fun x _ => by rw [hp]) fun x h0 hx => ?_
    rw [ha3.unpinned x h0 hx, hpins, ha.unpinned x h0 fun hu => hx (by simp [hu])]
  · simp only [allIds, List.flatMap_cons, List.map_append, List.map_cons] at hperm3 ⊢
    exact (List.Perm.append_left _ hperm3).trans (perm_grown ..)
  · refine cut_changes hc hcl fun x hx => ?_
    have hids : ids (row m.1 (left ++ e :: R)) = left.map (·.2) ++ (e :: R).map (·.2) := by
      rw [ids_row, List.map_append]
    rw [ids, List.map_append, List.map_append, ← ids, ← ids, ← ids, hids]
    exact List.mem_append_left _ (List.mem_append_right _ (List.mem_append_right _ hx))

end Spot

/-- The rest of the call once the parent `m` of the old page is found. -/
theorem insertIntoParent_rest {A B : Level K} {m : Node K} {p : InternalPage K} {es : List (K × Nat)}
    {Ls : List (Level K)} {fuel : Nat} (sp : Spot s used A B m p es Ls) (ha : Alloc s used free h)
    (hes : es.length = p.array.length + 1)
    (ih : ∀ {s2 : IndexStore K V} {used' free' h' key q a}, Above s2 (A ++ m :: B) Ls → HasParent s2 m.2 a →
      HasParent s2 q a → Alloc s2 used' free' h' → (q :: ids (A ++ m :: B) ++ allIds Ls).Nodup →
      (∀ x ∈ q :: ids (A ++ m :: B) ++ allIds Ls, x ∈ used') →
      wp exec (BPlusTree.insertIntoParent fuel m.2 key q)
        (fun _ s' => Grown s2 s' (A ++ m :: ((key : WithBot K), q) :: B) Ls used') s2) :
    wp exec (do
        if p.maxSize ≤ es.length then
          let newInternal ← BPlusTree.split .InternalPage m.2
          let q ← getInternal newInternal
          BPlusTree.insertIntoParent fuel m.2 (← require (q.keyAt 0)) newInternal
          unpinPage (← getInternal newInternal).pageID true
        unpinPage (← getInternal m.2).pageID true)
      (fun _ s' => Grown s s' (below s A ++ row m.1 es ++ below s B) ((A ++ m :: B) :: Ls) used)
      ((s.setPins m.2 (s.pins m.2 + 1)).setPage m.2 (.internal { p with array := es })) := by
  obtain ⟨hid, hmax, hfit⟩ := sp.pageID
  have hmu := sp.mem_used
  have hmP := (nodup_around sp.nodup).1
  set s1 := (s.setPins m.2 (s.pins m.2 + 1)).setPage m.2 (.internal { p with array := es }) with hs1
  have h1m : s1.page m.2 = some (.internal { p with array := es }) := by simp [hs1]
  have h1 : ∀ x, x ≠ m.2 → s1.page x = s.page x := fun x hx => by simp [hs1, hx]
  have ha1 : Alloc s1 used free h :=
    ha.frame rfl (fun x hx => h1 x (sp.ne_page hx)) fun x _ hx => by simp [hs1, sp.ne_page hx]
  simp only [wp_bind, wp_ite, wp_getInternal, wp_require]
  -- the parent has no room for the new entry, or it has
  by_cases hfull : p.maxSize ≤ es.length
  · rw [if_pos hfull]
    have hlen : es.length = internalMax s := by
      have := hfit.2.2
      omega
    have hmax4 : 4 ≤ internalMax s := le_max_right _ _
    refine wp_conseq (split_internal_spec ha1 h1m hfull hmu hmP fun c hc => ?_) ?_
    · obtain ⟨hcu, -, -, hcm, -⟩ := sp.kid_apart hc
      obtain ⟨e, he, rfl⟩ := List.mem_map.1 hc
      obtain ⟨n, hn, -⟩ := sp.kids e he
      obtain ⟨pg, hpg, -⟩ := Option.bind_eq_some_iff.1 hn
      exact ⟨hcu, pg, by rw [h1 _ hcm, hpg]⟩
    dsimp only
    rintro q s2 ⟨free2, h2, hq, hq0, hqpin, h2m, h2q, h2kids, h2rest, h2pins, h2mem, ha2⟩
    have htake : es = es.take ((es.length + 1) / 2) ++ es.drop ((es.length + 1) / 2) := (List.take_append_drop _ _).symm
    have hl1 : (es.take ((es.length + 1) / 2)).length = (es.length + 1) / 2 := by
      rw [List.length_take]
      omega
    have hl2 : (es.drop ((es.length + 1) / 2)).length = es.length - (es.length + 1) / 2 := List.length_drop
    generalize es.take ((es.length + 1) / 2) = left at htake h2m hl1
    generalize es.drop ((es.length + 1) / 2) = right at htake h2q h2kids h2rest hl2
    obtain ⟨e, R, rfl⟩ : ∃ e R, right = e :: R := List.exists_cons_of_length_pos (by omega)
    -- the state after the split, in terms of the two halves
    have hcut : Spot.Cut s s2 used m p left (e :: R) q := by
      refine ⟨hq, h2m, h2q, fun c hc => ?_, fun y h0 hm hyq hr => ?_, h2mem⟩
      · have hcm := (sp.kid_apart (x := c) (by rw [htake, List.map_append]; exact List.mem_append_right _ hc)).2.2.2.1
        rw [h2kids c hc, h1 c hcm]
      · rw [h2rest y h0 hm hyq hr, h1 y hm]
    have sp' : Spot s used A B m p (left ++ e :: R) Ls := htake ▸ sp
    obtain ⟨hab2, hnd2, hsub2⟩ := sp'.cut_above hcut ha
    refine ⟨_, h2q, e.1, by simp [InternalPage.keyAt], ?_⟩
    -- the walk goes on above the parent
    refine wp_conseq (ih hab2 ((hasParent_internal h2m).2 ⟨hid, rfl⟩) ((hasParent_internal h2q).2 ⟨rfl, rfl⟩) ha2 hnd2
      hsub2) ?_
    rintro - s3 hg
    obtain ⟨Ls3, fresh, free3, h3, hab3, ha3, hperm3, hch3, hpins3⟩ := id hg
    have hnd3 := (List.nodup_append.1 (List.nodup_append.1 ha3.nodup).1).2.2
    have hsame : ∀ x ∈ q :: used, x ∉ allIds Ls → SameBody s2 s3 x := by
      intro x hx hl
      apply hch3.body x
      simp only [List.mem_cons, List.mem_append, not_or]
      exact ⟨ha3.ne_zero (List.mem_append_right _ hx), fun hf => hnd3 x hf x hx rfl, hl⟩
    have hup := (nodup_around sp.nodup).2.2.2.1
    obtain ⟨b1, h3q⟩ := (hsame q List.mem_cons_self fun hl => hq (sp.used q (by simp [hl]))).internal h2q
    obtain ⟨b2, h3m⟩ := (hsame m.2 (List.mem_cons_of_mem _ hmu) fun hl => (hup _ hl).1 rfl).internal h2m
    have hmq : m.2 ≠ q := by
      rintro hmq
      exact hq (hmq ▸ hmu)
    simp only [h3q, Option.some.injEq, IndexFilePage.internal.injEq, exists_eq_left', wp_unpinPage, setPins_page, h3m,
      setPins_pins, hpins3, h2pins, hid]
    refine ⟨by simp, by simp [hmq, hs1], ?_⟩
    rw [htake]
    -- the level below the halves is the one wanted, and each half fits a page
    refine sp'.grown_cut hcut ha ?_ ?_ hg rfl rfl ?_
    · exact ⟨by omega, fun _ => by omega, by omega⟩
    · exact ⟨by omega, fun _ => by omega, by omega⟩
    · funext x
      rcases eq_or_ne x m.2 with rfl | hxm
      · simp [hs1, hmq]
      · rcases eq_or_ne x q with rfl | hxq
        · simpa [hs1, hxm] using hqpin.symm
        · simp [hpins3, h2pins, hs1, hxm, hxq]
  · rw [if_neg hfull]
    refine ⟨_, h1m, ?_⟩
    simp only [hid, wp_unpinPage]
    refine ⟨by simp [hs1], (A ++ m :: B) :: Ls, [], free, h, ?_, ?_, List.Perm.refl _, ?_, by simp [hs1]⟩
    · refine sp.place ?_ (by simp [hs1, hid]) rfl
      have h2 := hfit.2.1
      exact ⟨by have := hfit.1; omega, fun hr => le_trans (h2 hr) (by omega), by omega⟩
    · exact ha1.frame rfl (fun x hx => rfl) fun x _ hx => by simp [sp.ne_page hx]
    · have hmem : m.2 ∈ 0 :: ([] ++ allIds ((A ++ m :: B) :: Ls)) := by simp [allIds]
      refine ⟨fun x _ hx => ?_, fun x hx => .of_eq ?_, rfl, rfl⟩
      all_goals
        have hne : x ≠ m.2 := by rintro rfl; exact hx hmem
        exact h1 x hne

theorem insertIntoParent_spec (Ls : List (Level K)) : ∀ {s : IndexStore K V} {used free h fuel A B l o key new a},
    Ls.length < fuel → Above s (A ++ (l, o) :: B) Ls → HasParent s o a → HasParent s new a →
    Alloc s used free h → (new :: ids (A ++ (l, o) :: B) ++ allIds Ls).Nodup →
    (∀ x ∈ new :: ids (A ++ (l, o) :: B) ++ allIds Ls, x ∈ used) →
    wp exec (BPlusTree.insertIntoParent fuel o key new)
      (fun _ s' => Grown s s' (A ++ (l, o) :: ((key : WithBot K), new) :: B) Ls used) s := by
  induction Ls with
  -- no level above: the old page is the root
  | nil =>
    intro s used free h fuel A B lo old key new a hfuel hab hold hnew ha hnd hsub
    obtain ⟨fuel, rfl⟩ : ∃ f, fuel = f + 1 := ⟨fuel - 1, by omega⟩
    obtain ⟨r, hL, hr, hpar⟩ := hab
    obtain ⟨rfl, rfl⟩ : A = [] ∧ B = [] := by
      rcases A with _ | ⟨_, _ | _⟩ <;> simp_all
    obtain ⟨rfl, rfl⟩ : lo = ⊥ ∧ old = r := by simpa using hL
    obtain rfl := hold.unique hpar
    apply insertIntoParent_root rfl hold hnew ha (hsub _ (by simp)) (hsub _ (by simp))
    simp at hnd
    exact hnd
  | cons L Ls ih =>
    intro s used free h fuel A B lo old key new a hfuel hab hold hnew ha hnd hsub
    obtain ⟨fuel, rfl⟩ : ∃ f, fuel = f + 1 := ⟨fuel - 1, by omega⟩
    -- the parent `m` of the old page, and its place in the level above
    obtain ⟨A', m, B', p, X, k, Y, rfl, hp, hid, hes, hleft, rfl, hpar⟩ := hab.parent
    obtain rfl := hold.unique hpar
    obtain ⟨-, hl, hab⟩ := hab
    have hLids : ids (A ++ (lo, old) :: (Y.map cell ++ below s B')) =
        ids (below s A') ++ (X.map (·.2) ++ [old]) ++ (Y.map (·.2) ++ ids (below s B')) := by
      have : A ++ (lo, old) :: (Y.map cell ++ below s B') = (A ++ [(lo, old)]) ++ (Y.map cell ++ below s B') := by simp
      rw [this, hleft]
      simp [Function.comp_def, cell]
    have hLnew : A ++ (lo, old) :: ((key : WithBot K), new) :: (Y.map cell ++ below s B') =
        below s A' ++ row m.1 (X ++ (k, old) :: (key, new) :: Y) ++ below s B' := by
      have : A ++ (lo, old) :: ((key : WithBot K), new) :: (Y.map cell ++ below s B') =
          (A ++ [(lo, old)]) ++ cell (key, new) :: (Y.map cell ++ below s B') := by simp [cell]
      rw [this, hleft, row_insert]
      simp
    obtain ⟨p0, hp0, -, hmax, hfit, hkids, hfirst⟩ := hl m (by simp)
    obtain rfl : p0 = p := by simpa [hp] using hp0.symm
    rw [hLids] at hnd hsub
    have sp : Spot s used A' B' m p0 (X ++ (k, old) :: (key, new) :: Y) Ls := by
      refine ⟨hl, hab, hp, fun e he => ?_, (hes ▸ hfirst).head, ?_, fun x hx => hsub x ?_⟩
      · rcases eq_or_ne e (key, new) with rfl | hne
        · exact hnew
        · apply hkids e
          rw [hes]
          simp only [List.mem_append, List.mem_cons] at he ⊢
          tauto
      · simpa [allIds] using nodup_place (U := ids (below s A')) (X := X.map (·.2)) (Y := Y.map (·.2))
          (by simpa [allIds] using hnd)
      · simp only [List.cons_append, List.map_append, List.map_cons, allIds, List.flatMap_cons, List.mem_append,
          List.mem_cons, List.not_mem_nil] at hx ⊢
        tauto
    obtain ⟨no, hno, hido, hpo⟩ := hold
    obtain ⟨nn, hnn, hidn, hpn⟩ := hnew
    -- the new entry goes behind the old page's
    have hins := InternalPage.insertNodeAfter_eq (d := key) (n := new) hes (by
      intro hY
      have hP := (List.nodup_append.1 (by simpa using (List.nodup_cons.1 (nodup_around sp.nodup).1).2 :
        (X.map (·.2) ++ old :: new :: Y.map (·.2)).Nodup)).2.1
      simp only [List.nodup_cons, List.mem_cons, not_or] at hP
      exact hP.1.2 hY)
    have hrest := insertIntoParent_rest sp ha (by simp [hes]; omega)
      (fun {s2 used' free' h' key q a} hab2 h1 h2 h3 h4 h5 =>
        ih (A := A') (l := m.1) (o := m.2) (B := B') (by simpa using hfuel) hab2 h1 h2 h3 h4 h5)
    rw [hLnew]
    simp only [BPlusTree.insertIntoParent, wp_bind, wp_getNode, hno, hnn, Option.some.injEq, exists_eq_left', hpo,
      wp_fetchPage, wp_getInternal, setPins_page, hp, IndexFilePage.internal.injEq, hido, hidn, wp_require, hins,
      wp_setInternal]
    refine ⟨⟨_, rfl⟩, ⟨_, rfl⟩, ?_⟩
    exact hrest

end Parent

end MisakiDB
