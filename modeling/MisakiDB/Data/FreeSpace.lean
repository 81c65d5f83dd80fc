import MisakiDB.Data.BlobFile
/-!
# Data pages and their map, one call at a time

`MapFile` says which entry the map keeps for each data page, `DataFile` which
records each data page holds, and `Booked` that an entry promises no more than its
page has. An entry is looked for in the order of the data pages: `reserve_spec`.
-/

namespace MisakiDB.DataAccessor

open Prog PageStore DataFileManager

variable {s s' : DataStore} {N M : Nat}

/-! ## Numbers of data pages -/

theorem convertToDataPageID_eq (i : Nat) (j : Fin FreeSpaceMapFilePage.MAX_SIZE) :
    @Eq Nat (convertToDataPageID i j) (1024 * (i - 1) + j + 1) := by
  show (i - 1) * 1024 + (j : Nat) + 1 = _
  omega

theorem convertToMapPageID_eq (p : Nat) : @Eq Nat (convertToMapPageID p) ((p - 1) / 1024 + 1) := rfl

/-- The data pages that `M - 1` map pages have entries for. -/
def covered (M : Nat) : Nat := FreeSpaceMapFilePage.MAX_SIZE * (M - 1)

theorem covered_eq (M : Nat) : covered M = 1024 * (M - 1) := rfl

theorem index_lt (j : Fin FreeSpaceMapFilePage.MAX_SIZE) : (j : Nat) < 1024 := j.isLt

theorem convertToMapPageID_convertTo {i : Nat} (hi : 1 ≤ i) (j : Fin FreeSpaceMapFilePage.MAX_SIZE) :
    convertToMapPageID (convertToDataPageID i j) = i := by
  have hj := index_lt j
  rw [convertToMapPageID_eq, convertToDataPageID_eq]
  show (1024 * (i - 1) + (j : Nat) + 1 - 1) / 1024 + 1 = i
  omega

theorem convertToMapIndex_convertTo (i : Nat) (j : Fin FreeSpaceMapFilePage.MAX_SIZE) :
    convertToMapIndex (convertToDataPageID i j) = j := by
  have hj := index_lt j
  apply Fin.ext
  unfold convertToMapIndex
  rw [convertToDataPageID_eq]
  show (1024 * (i - 1) + (j : Nat) + 1 - 1) % 1024 = j
  omega

theorem convertToDataPageID_convertTo {p : Nat} (hp : 1 ≤ p) :
    convertToDataPageID (convertToMapPageID p) (convertToMapIndex p) = p := by
  rw [convertToDataPageID_eq, convertToMapPageID_eq]
  show 1024 * ((p - 1) / 1024 + 1 - 1) + (p - 1) % 1024 + 1 = p
  omega

/-- The code's ids have 32 bits. The number of a data page is exact as long as it fits. -/
theorem convertToDataPageID_exact {i : Nat} (hi : 1 ≤ i) (j : Fin FreeSpaceMapFilePage.MAX_SIZE)
    (h : convertToDataPageID i j < 2 ^ 32) :
    ((BitVec.ofNat 32 i - 1#32) * 1024#32 + BitVec.ofNat 32 j + 1#32).toNat = convertToDataPageID i j := by
  have hj := index_lt j
  rw [convertToDataPageID_eq] at h ⊢
  have h : 1024 * (i - 1) + (j : Nat) + 1 < 2 ^ 32 := h
  simp only [BitVec.toNat_add, BitVec.toNat_mul, BitVec.toNat_sub, BitVec.toNat_ofNat]
  omega

/-- So is the place of its entry. -/
theorem convertToMapPageID_exact {p : Nat} (hp : 1 ≤ p) (h : p < 2 ^ 32) :
    ((BitVec.ofNat 32 p - 1#32) / 1024#32 + 1#32).toNat = convertToMapPageID p ∧
    ((BitVec.ofNat 32 p - 1#32) % 1024#32).toNat = convertToMapIndex p := by
  have hsub : (BitVec.ofNat 32 p - 1#32).toNat = p - 1 := by
    simp only [BitVec.toNat_sub, BitVec.toNat_ofNat]
    omega
  constructor
  · rw [convertToMapPageID_eq]
    simp only [BitVec.toNat_add, BitVec.toNat_udiv, BitVec.toNat_ofNat, hsub, Nat.reducePow, Nat.reduceMod]
    omega
  · rw [BitVec.toNat_umod, hsub]
    rfl

theorem convertToMapPageID_lt {p : Nat} (hp : 1 ≤ p) (h : p ≤ covered M) : convertToMapPageID p < M := by
  rw [covered_eq] at h
  show (p - 1) / 1024 + 1 < M
  omega

theorem convertToMapPageID_pos (p : Nat) : 1 ≤ convertToMapPageID p := Nat.le_add_left 1 _

/-- The data pages that map page `i` has entries for. -/
theorem convertToDataPageID_mem {i : Nat} (hi : 1 ≤ i) (j : Fin FreeSpaceMapFilePage.MAX_SIZE) :
    covered i + 1 ≤ convertToDataPageID i j ∧ convertToDataPageID i j ≤ covered (i + 1) := by
  have hj := index_lt j
  rw [convertToDataPageID_eq, covered_eq, covered_eq]
  exact ⟨by omega, show 1024 * (i - 1) + (j : Nat) + 1 ≤ 1024 * (i + 1 - 1) by omega⟩

theorem exists_index {i q : Nat} (hi : 1 ≤ i) (h1 : covered i + 1 ≤ q) (h2 : q ≤ covered (i + 1)) :
    ∃ l, q = convertToDataPageID i l := by
  rw [covered_eq] at h1 h2
  refine ⟨⟨q - 1 - 1024 * (i - 1), show q - 1 - 1024 * (i - 1) < 1024 by omega⟩, ?_⟩
  rw [convertToDataPageID_eq]
  show q = 1024 * (i - 1) + (q - 1 - 1024 * (i - 1)) + 1
  omega

theorem covered_mono {a b : Nat} (h : a ≤ b) : covered a ≤ covered b :=
  Nat.mul_le_mul_left _ (Nat.sub_le_sub_right h 1)

/-! ## The map -/

/-- The map has `M - 1` pages, with the entries of `book`. -/
structure MapFile (s : DataStore) (M : Nat) (book : Nat → FreeSpaceEntry) : Prop where
  header : s.page (mapKey 0) = some (.mapHeader M)
  pos : 1 ≤ M
  page : ∀ i, 1 ≤ i → i < M → s.page (mapKey i) = some (.map fun j => book (convertToDataPageID i j))
  fresh : ∀ i, M ≤ i → s.page (mapKey i) = none

theorem MapFile.frame {book : Nat → FreeSpaceEntry} (h : MapFile s M book)
    (hp : ∀ i, s'.page (mapKey i) = s.page (mapKey i)) : MapFile s' M book :=
  ⟨by rw [hp]; exact h.header, h.pos, fun i => by rw [hp]; exact h.page i, fun i => by rw [hp]; exact h.fresh i⟩

/-- A write to one entry. -/
theorem MapFile.setEntry {book : Nat → FreeSpaceEntry} (h : MapFile s M book) {i : Nat} (hi : 1 ≤ i) (hM : i < M)
    (j : Fin FreeSpaceMapFilePage.MAX_SIZE) (e : FreeSpaceEntry)
    (hpage : s'.page (mapKey i) = some (.map (Function.update (fun j => book (convertToDataPageID i j)) j e)))
    (hp : ∀ k, k ≠ i → s'.page (mapKey k) = s.page (mapKey k)) :
    MapFile s' M (Function.update book (convertToDataPageID i j) e) := by
  have hother : ∀ k, 1 ≤ k → k ≠ i → ∀ l, convertToDataPageID k l ≠ convertToDataPageID i j := fun k hk hne l heq => by
    have := congrArg convertToMapPageID heq
    rw [convertToMapPageID_convertTo hk, convertToMapPageID_convertTo hi] at this
    exact hne this
  refine ⟨by rw [hp 0 (by omega)]; exact h.header, h.pos, fun k hk hkM => ?_, fun k hk => ?_⟩
  · by_cases hki : k = i
    · subst hki
      rw [hpage]
      congr 2
      funext l
      by_cases hl : l = j
      · simp [hl]
      · have hne : convertToDataPageID k l ≠ convertToDataPageID k j := fun heq => hl (by
          rw [← convertToMapIndex_convertTo k l, heq, convertToMapIndex_convertTo])
        simp [hl, hne]
    · rw [hp k hki, h.page k hk hkM]
      congr 2
      funext l
      rw [Function.update_of_ne (hother k hk hki l)]
  · rw [hp k (by omega), h.fresh k hk]

/-! ## The search -/

theorem firstFit_some {m : FreeSpaceMapFilePage} {n : Nat} {j : Fin FreeSpaceMapFilePage.MAX_SIZE}
    (h : firstFit m n = some j) : (m j).fits n = true ∧ ∀ l < j, ¬ (m l).fits n = true := by
  unfold firstFit at h
  rw [List.find?_eq_some_iff_getElem] at h
  obtain ⟨hfits, i, hi, hij, hbefore⟩ := h
  refine ⟨hfits, fun l hl => ?_⟩
  have hli : (l : Nat) < i := by
    rw [List.getElem_finRange] at hij
    rw [← hij] at hl
    exact hl
  have := hbefore l hli
  simpa using this

theorem firstFit_none {m : FreeSpaceMapFilePage} {n : Nat} (h : firstFit m n = none)
    (l : Fin FreeSpaceMapFilePage.MAX_SIZE) :
    ¬ (m l).fits n = true := by
  unfold firstFit at h
  rw [List.find?_eq_none] at h
  exact h l (List.mem_finRange l)

/-- Only pages of the map differ. -/
def MapOnly (s s' : DataStore) : Prop := (∀ k, (∀ i, k ≠ mapKey i) → s'.page k = s.page k) ∧ s'.member = s.member

theorem MapOnly.trans {t : DataStore} (h : MapOnly s t) (h' : MapOnly t s') : MapOnly s s' :=
  ⟨fun k hk => by rw [h'.1 k hk, h.1 k hk], h'.2.trans h.2⟩

/-- What the search for an entry that fits ends in, from data page `from_` on. -/
def Searched (s : DataStore) (M : Nat) (book : Nat → FreeSpaceEntry) (n start stop : Nat) (o : Option Nat)
    (s' : DataStore) :
    Prop :=
  match o with
  | some p => start ≤ p ∧ p ≤ stop ∧ (book p).fits n = true ∧ (∀ q, start ≤ q → q < p → ¬ (book q).fits n = true) ∧
      MapFile s' M (Function.update book p ((book p).reserve n))
  | none => (∀ q, start ≤ q → q ≤ stop → ¬ (book q).fits n = true) ∧ s'.page = s.page

theorem searchMapPage_spec {book : Nat → FreeSpaceEntry} (h : MapFile s M book) (n : Nat) {i : Nat}
    (hi : 1 ≤ i) (hM : i < M) :
    wp exec (searchMapPage n i)
      (fun o s' => Searched s M book n (covered i + 1) (covered (i + 1)) o s' ∧ MapOnly s s') s := by
  have hpage := h.page i hi hM
  unfold searchMapPage
  simp only [wp_bind, wp_fetchPage, wp_getMapPage]
  refine ⟨⟨_, hpage⟩, _, by simp [pageAs, hpage, FilePage.asMap]; rfl, ?_⟩
  generalize hm : (fun j => book (convertToDataPageID i j)) = m at hpage
  have hbook : ∀ l, m l = book (convertToDataPageID i l) := fun l => by rw [← hm]
  rcases hfind : firstFit m n with _ | j
  · have hnone := firstFit_none hfind
    simp only [wp_bind, wp_unpinPage, wp_pure]
    refine ⟨by simp, ⟨fun q h1 h2 => ?_, rfl⟩, fun _ _ => rfl, rfl⟩
    obtain ⟨l, rfl⟩ := exists_index hi h1 h2
    rw [← hbook]
    exact hnone l
  · obtain ⟨hfits, hbefore⟩ := firstFit_some hfind
    simp only [wp_bind, wp_setData, wp_unpinPage, wp_pure]
    refine ⟨⟨_, hpage⟩, by simp, ⟨(convertToDataPageID_mem hi j).1, (convertToDataPageID_mem hi j).2,
      by rw [← hbook]; exact hfits, fun q h1 h2 => ?_, ?_⟩,
      fun k hk => by simp [hk i], rfl⟩
    · obtain ⟨l, rfl⟩ := exists_index hi h1 (h2.le.trans (convertToDataPageID_mem hi j).2)
      rw [← hbook]
      apply hbefore
      rw [convertToDataPageID_eq, convertToDataPageID_eq] at h2
      exact Fin.lt_def.2 (by omega)
    · refine h.setEntry hi hM j _ ?_ fun k hk => by simp [hk]
      rw [hm, ← hbook]
      simp [FreeSpaceMapFilePage.subFreeSpace, FreeSpaceEntry.reserve]

theorem searchMap_spec {book : Nat → FreeSpaceEntry} (h : MapFile s M book) (n : Nat) {rest i : Nat} (hi : 1 ≤ i)
    (hM : i + rest = M) :
    wp exec (searchMap n rest i)
      (fun o s' => Searched s M book n (covered i + 1) (covered M) o s' ∧ MapOnly s s') s := by
  induction rest generalizing s i with
  | zero =>
    obtain rfl : i = M := by omega
    exact (wp_pure _).2 ⟨⟨fun q h1 h2 => by omega, rfl⟩, fun _ _ => rfl, rfl⟩
  | succ rest ih =>
    rw [searchMap, wp_bind]
    apply wp_conseq (searchMapPage_spec h n hi (by omega))
    rintro (_ | p) t ⟨hsearch, honly⟩
    · obtain ⟨hnone, hpages⟩ := hsearch
      have ht : MapFile t M book := h.frame fun _ => by rw [hpages]
      apply wp_conseq (ih ht (by omega) (by omega))
      rintro (_ | p) s' ⟨hsearch, honly'⟩
      · obtain ⟨hnone', hpages'⟩ := hsearch
        refine ⟨⟨fun q h1 h2 => ?_, hpages'.trans hpages⟩, honly.trans honly'⟩
        by_cases hq : q ≤ covered (i + 1)
        · exact hnone q h1 hq
        · exact hnone' q (by omega) h2
      · obtain ⟨h1, h2, hfits, hbefore, hmap⟩ := hsearch
        refine ⟨⟨(Nat.succ_le_succ (covered_mono (Nat.le_succ i))).trans h1, h2, hfits, fun q hq1 hq2 => ?_, hmap⟩,
          honly.trans honly'⟩
        by_cases hq : q ≤ covered (i + 1)
        · exact hnone q hq1 hq
        · exact hbefore q (by omega) hq2
    · obtain ⟨h1, h2, hfits, hbefore, hmap⟩ := hsearch
      exact (wp_pure _).2 ⟨⟨h1, h2.trans (covered_mono (by omega)), hfits, hbefore, hmap⟩, honly⟩

/-! ## `allocateDataPage` and `addFreeSpace` -/

/-- The entry that `reserve` charges is the first that fits, and comes to be when none does. -/
theorem reserve_spec {book : Nat → FreeSpaceEntry} (h : MapFile s M book) (hidle : Idle s) {n : Nat}
    (hempty : ∀ p, covered M < p → book p = .empty) :
    wp exec (reserve n) (fun p s' => 1 ≤ p ∧ (∀ q, 1 ≤ q → q < p → q ≤ covered M → ¬ (book q).fits n = true) ∧
      (p ≤ covered M ∧ (book p).fits n = true ∨ p = covered M + 1) ∧ MapOnly s s' ∧ ∃ M', M ≤ M' ∧ p ≤ covered M' ∧
      (p ≤ covered M ∧ M' = M ∨ p = covered M + 1 ∧ M' = M + 1) ∧
      MapFile s' M' (Function.update book p ((book p).reserve n))) s := by
  have hpos := h.pos
  unfold reserve
  simp only [wp_bind, wp_fetchPage, wp_wLatch, wp_getMapHeader]
  refine ⟨⟨_, h.header⟩, hidle _, M, by simp [pageAs, h.header, FilePage.asMapHeader], ?_⟩
  generalize hs₁ : PageStore.setLatch _ (mapKey 0) .writing = s₁
  have hpages₁ : s₁.page = s.page := by rw [← hs₁]; rfl
  have h₁ : MapFile s₁ M book := h.frame fun _ => by rw [hpages₁]
  have honly₁ : MapOnly s s₁ := ⟨fun _ _ => by rw [hpages₁], by rw [← hs₁]; rfl⟩
  have hcov : covered 1 = 0 := rfl
  apply wp_conseq (wp_and_wlp (searchMap_spec h₁ n le_rfl (by omega)) (searchMap_held n (M - 1) 1))
  rintro (_ | p) t ⟨⟨hsearch, honly⟩, hpins, hlatch⟩
  -- no page fits: the map grows by one page, and its first entry is taken
  · obtain ⟨hnone, hpages⟩ := hsearch
    have ht : MapFile t M book := h₁.frame fun _ => by rw [hpages]
    have hM0 : M ≠ 0 := by omega
    simp only [wp_bind, wp_appendNewPage, wp_unpinPage, wp_setData, wp_wUnlatch, wp_pure]
    refine ⟨ht.fresh M le_rfl, by simp, ⟨.zero, by simp; rfl⟩, ⟨_, by simpa [hM0.symm] using ht.header⟩,
      by simp [hlatch, ← hs₁], by simp [hM0.symm, hpins, ← hs₁], ?_⟩
    have hp : convertToDataPageID M ⟨0, by decide⟩ = covered M + 1 := by
      unfold convertToDataPageID covered
      rw [Nat.mul_comm]
      rfl
    rw [hp]
    refine ⟨Nat.le_add_left 1 _, fun q h1 _ h3 => hnone q h1 h3, .inr rfl, ?_, M + 1, Nat.le_succ M, ?_,
      .inr ⟨rfl, rfl⟩, ?_⟩
    · refine honly₁.trans (honly.trans ⟨fun k hk => ?_, rfl⟩)
      simp [hk M, hk 0]
    · rw [← hp]
      exact (convertToDataPageID_mem hpos _).2
    · have hreserve : (book (covered M + 1)).reserve n = FreeSpaceEntry.empty.subFreeSpace false n := by
        rw [hempty _ (Nat.lt_succ_self _)]
        rfl
      have hgrown : MapFile ((((t.setPage (mapKey M) default).setPage (mapKey M) (.map FreeSpaceMapFilePage.init)).setPage
          (mapKey 0) (.mapHeader (M + 1)))) (M + 1) book := by
        refine ⟨by simp, by omega, fun i hi hiM => ?_, fun i hi => ?_⟩
        · by_cases hiM' : i = M
          · subst hiM'
            have hnew : ∀ l, book (convertToDataPageID i l) = .empty := fun l =>
              hempty _ (convertToDataPageID_mem hpos l).1
            simp only [setPage_page, hnew, Function.update_of_ne (show mapKey i ≠ mapKey 0 by simpa using hM0),
              Function.update_self]
            rfl
          · have hi0 : i ≠ 0 := by omega
            simpa [hi0, hiM'] using ht.page i hi (by omega)
        · have h1 : i ≠ 0 := by omega
          have h2 : i ≠ M := by omega
          simpa [h1, h2] using ht.fresh i (by omega)
      rw [hreserve, ← hp]
      refine hgrown.setEntry hpos (Nat.lt_succ_self M) _ _ ?_ fun k hk => ?_
      · have hinit : (fun j => book (convertToDataPageID M j)) = FreeSpaceMapFilePage.init := by
          funext l
          exact hempty _ (convertToDataPageID_mem hpos l).1
        rw [hinit]
        simp [hM0, FreeSpaceMapFilePage.subFreeSpace, FreeSpaceMapFilePage.init]
      · by_cases hk0 : k = 0
        · simp [hk0, hM0.symm]
        · simp [hk, hk0]
  -- the search has reserved the place on its own
  · obtain ⟨h1, h2, hfits, hbefore, hmap⟩ := hsearch
    simp only [wp_bind, wp_wUnlatch, wp_unpinPage, wp_pure]
    refine ⟨by simp [hlatch, ← hs₁], by simp [hpins, ← hs₁], h1, fun q hq1 hq2 _ => hbefore q hq1 hq2,
      .inl ⟨h2, hfits⟩, honly₁.trans (honly.trans ⟨fun _ _ => rfl, rfl⟩), M, le_rfl, h2, .inl ⟨h2, rfl⟩,
      hmap.frame fun _ => rfl⟩

theorem addFreeSpace_spec {book : Nat → FreeSpaceEntry} (h : MapFile s M book) (hidle : Idle s) {p : Nat} (hp : 1 ≤ p)
    (hM : p ≤ covered M) (n : Nat) :
    wp exec (addFreeSpace p n) (fun _ s' => MapOnly s s' ∧
      MapFile s' M (Function.update book p ((book p).addFreeSpace n))) s := by
  have hi := convertToMapPageID_pos p
  have hiM := convertToMapPageID_lt hp hM
  have hback := convertToDataPageID_convertTo hp
  unfold addFreeSpace
  generalize convertToMapPageID p = i at hi hiM hback
  generalize convertToMapIndex p = j at hback
  subst hback
  have hpage := h.page i hi hiM
  simp only [wp_bind, wp_fetchPage, wp_wLatch, wp_getMapPage, wp_setData, wp_wUnlatch, wp_unpinPage]
  refine ⟨⟨_, hpage⟩, hidle _, _, by simp [pageAs, hpage, FilePage.asMap]; rfl, ⟨_, by simpa using hpage⟩, by simp,
    by simp, ⟨fun k hk => by simp [hk _], rfl⟩, ?_⟩
  apply h.setEntry hi hiM j
  · simp [FreeSpaceMapFilePage.addFreeSpace]
  · intro k hk
    simp [hk]

/-! ## The data file -/

/-- The data file has `N - 1` pages, and each meets `P`. -/
structure DataFile (s : DataStore) (N : Nat) (P : Nat → RawPage → Prop) : Prop where
  header : s.page (dataKey 0) = some (.dataHeader N)
  pos : 1 ≤ N
  page : ∀ p, 1 ≤ p → p < N → ∃ raw, s.page (dataKey p) = some (.data raw) ∧ P p raw
  fresh : ∀ p, N ≤ p → s.page (dataKey p) = none

section DataFile
variable {P Q : Nat → RawPage → Prop}

theorem DataFile.frame (h : DataFile s N P) (hp : ∀ p, s'.page (dataKey p) = s.page (dataKey p)) : DataFile s' N P :=
  ⟨by rw [hp]; exact h.header, h.pos, fun p => by rw [hp]; exact h.page p, fun p => by rw [hp]; exact h.fresh p⟩

/-- A write to one page. -/
theorem DataFile.setPage (h : DataFile s N P) {p : Nat} (hp : 1 ≤ p) (hN : p < N) {raw : RawPage}
    (hpage : s'.page (dataKey p) = some (.data raw)) (hself : Q p raw) (hrest : ∀ q, q ≠ p → ∀ r, P q r → Q q r)
    (hother : ∀ q, q ≠ p → s'.page (dataKey q) = s.page (dataKey q)) : DataFile s' N Q := by
  refine ⟨by rw [hother 0 (by omega)]; exact h.header, h.pos, fun q hq hqN => ?_, fun q hq => ?_⟩
  · by_cases hqp : q = p
    · subst hqp
      exact ⟨raw, hpage, hself⟩
    · rw [hother q hqp]
      obtain ⟨r, hr, hP⟩ := h.page q hq hqN
      exact ⟨r, hr, hrest q hqp r hP⟩
  · rw [hother q (by omega)]
    exact h.fresh q hq

/-- Only pages of the data file differ. -/
def DataOnly (s s' : DataStore) : Prop := (∀ k, (∀ i, k ≠ dataKey i) → s'.page k = s.page k) ∧ s'.member = s.member

/-- The next page is made, and an older one is fetched. -/
theorem obtain_spec (h : DataFile s N P) (hidle : Idle s) {p : Nat} (hp : 1 ≤ p) (hN : p ≤ N)
    (hinit : P N (DataFilePage.init fun _ => 0)) :
    wp exec (obtain p) (fun _ s' => DataOnly s s' ∧ DataFile s' (max N (p + 1)) P ∧
      ∀ q, 1 ≤ q → q < N → s'.page (dataKey q) = s.page (dataKey q)) s := by
  have hpos := h.pos
  unfold obtain
  simp only [wp_bind, wp_fetchPage, wp_wLatch, wp_getDataHeader]
  refine ⟨⟨_, h.header⟩, hidle _, N, by simp [pageAs, h.header, FilePage.asDataHeader], ?_⟩
  -- a page that is not in the file is the next one, and is made
  by_cases hpN : N ≤ p
  · obtain rfl : p = N := by omega
    have hp0 : p ≠ 0 := by omega
    rw [if_pos hpN]
    simp only [wp_bind, wp_appendNewPage, wp_setData, wp_wUnlatch, wp_unpinPage]
    refine ⟨h.fresh p le_rfl, ⟨.zero, by simp; rfl⟩, ⟨_, by simpa [hp0.symm] using h.header⟩, by simp,
      by simp [hp0.symm], ⟨fun k hk => by simp [hk p, hk 0], rfl⟩, ?_, fun q hq hqp => ?_⟩
    · rw [Nat.max_eq_right (Nat.le_succ p)]
      refine ⟨by simp, by omega, fun q hq hqp => ?_, fun q hq => ?_⟩
      · by_cases hqp' : q = p
        · subst hqp'
          exact ⟨_, by simp [hp0], hinit⟩
        · have hq0 : q ≠ 0 := by omega
          simpa [hq0, hqp'] using h.page q hq (by omega)
      · have h1 : q ≠ 0 := by omega
        have h2 : q ≠ p := by omega
        simpa [h1, h2] using h.fresh q (by omega)
    · have h1 : q ≠ 0 := by omega
      have h2 : q ≠ p := by omega
      simp [h1, h2]
  · rw [if_neg hpN]
    have hp0 : p ≠ 0 := by omega
    obtain ⟨raw, hraw, -⟩ := h.page p hp (by omega)
    simp only [wp_bind, wp_fetchPage, wp_wUnlatch, wp_unpinPage]
    refine ⟨⟨_, by simpa using hraw⟩, by simp, by simp [hp0.symm], ⟨fun k hk => rfl, rfl⟩, ?_, fun _ _ _ => rfl⟩
    rw [Nat.max_eq_left (by omega)]
    exact h.frame fun _ => rfl

theorem newDataStore_data : DataFile newDataStore 1 P := by
  refine ⟨by simp [newDataStore], le_rfl, fun p h1 h2 => by omega, fun p hp => ?_⟩
  have h0 : p ≠ 0 := Nat.one_le_iff_ne_zero.1 hp
  simp [newDataStore, h0]

end DataFile

theorem newDataStore_map : MapFile newDataStore 1 fun _ => .empty := by
  refine ⟨by simp [newDataStore], le_rfl, fun i h1 h2 => by omega, fun i hi => ?_⟩
  have h0 : i ≠ 0 := Nat.one_le_iff_ne_zero.1 hi
  simp [newDataStore, h0]

/-- Each page holds what the shelf says: how many slots, and the records. -/
def Shelved (shelf : Nat → Nat × List DataFilePage.Rec) (p : Nat) (raw : RawPage) : Prop :=
  DataFilePage.Holds raw (shelf p).1 (shelf p).2

theorem shelved_init {shelf : Nat → Nat × List DataFilePage.Rec} {p : Nat} (h : shelf p = (0, [])) (raw : RawPage) :
    Shelved shelf p (DataFilePage.init raw) := by
  unfold Shelved
  rw [h]
  exact DataFilePage.init_holds raw

/-- A page whose place on the shelf changes. -/
theorem shelved_update {shelf : Nat → Nat × List DataFilePage.Rec} {p : Nat} {x : Nat × List DataFilePage.Rec} :
    (∀ raw, DataFilePage.Holds raw x.1 x.2 → Shelved (Function.update shelf p x) p raw) ∧
    ∀ q, q ≠ p → ∀ raw, Shelved shelf q raw → Shelved (Function.update shelf p x) q raw := by
  unfold Shelved
  refine ⟨fun raw h => by simpa using h, fun q hq raw h => ?_⟩
  rw [Function.update_of_ne hq]
  exact h

/-! ## The two books -/

/-- The entry promises `lost` bytes less than the page has. -/
structure Booked (e : FreeSpaceEntry) (x : Nat × List DataFilePage.Rec) (lost : Nat) : Prop where
  freeSpace : e.freeSpace + DataFilePage.slotAt x.1 + DataFilePage.size x.2 + lost = PAGE_SIZE
  invalidSlotNum : e.invalidSlotNum + x.2.length = x.1

theorem booked_empty : Booked .empty (0, []) 0 := ⟨rfl, rfl⟩

namespace Booked

variable {e : FreeSpaceEntry} {slotsNum lost n : Nat} {area : List DataFilePage.Rec}

theorem small (h : Booked e (slotsNum, area) lost) : e.freeSpace < 4096 ∧ e.invalidSlotNum < 4096 := by
  have hf := h.freeSpace
  have hi := h.invalidSlotNum
  have hPAGE : PAGE_SIZE = 4096 := rfl
  simp only [DataFilePage.slotAt_eq] at hf hi
  omega

/-- What fits the entry fits the page. -/
theorem room (h : Booked e (slotsNum, area) lost) (hfits : e.fits n = true) :
    DataFilePage.slotAt (DataFilePage.grow slotsNum area) + DataFilePage.size area + n ≤ PAGE_SIZE := by
  have hf := h.freeSpace
  have hi := h.invalidSlotNum
  have hslot : DataFilePage.SLOT_SIZE = 5 := rfl
  rw [FreeSpaceEntry.fits_iff, hslot] at hfits
  unfold DataFilePage.grow
  simp only [DataFilePage.slotAt_eq] at hf hi ⊢
  split <;> omega

/-- The charge is what the insertion takes. -/
theorem reserve (h : Booked e (slotsNum, area) lost) {r : DataFilePage.Rec} (hfits : e.fits r.bytes.length = true) :
    r.bytes.length + e.slotCost ≤ e.freeSpace ∧
    Booked (e.reserve r.bytes.length) (DataFilePage.grow slotsNum area, r :: area) lost := by
  have hf := h.freeSpace
  have hi := h.invalidSlotNum
  have hsmall := h.small
  obtain ⟨hle, heq⟩ := FreeSpaceEntry.reserve_eq hfits (by omega) (by omega)
  have hslot : DataFilePage.SLOT_SIZE = 5 := rfl
  refine ⟨hle, ?_⟩
  rw [heq]
  unfold FreeSpaceEntry.slotCost at hle ⊢
  unfold DataFilePage.grow
  rw [hslot] at hle ⊢
  simp only [DataFilePage.slotAt_eq] at hf hi
  constructor
  · simp only [DataFilePage.slotAt_eq, DataFilePage.size_cons]
    split_ifs at hle ⊢ <;> omega
  · simp only [List.length_cons]
    split <;> omega

/-- A removal credits `n` bytes for a record that may be longer. -/
theorem addFreeSpace {front back : List DataFilePage.Rec} {r : DataFilePage.Rec}
    (h : Booked e (slotsNum, front ++ r :: back) lost) (hn : n ≤ r.bytes.length) :
    Booked (e.addFreeSpace n) (slotsNum, front ++ back) (lost + (r.bytes.length - n)) := by
  have hf := h.freeSpace
  have hi := h.invalidSlotNum
  have hsmall := h.small
  have hPAGE : PAGE_SIZE = 4096 := rfl
  simp only [DataFilePage.slotAt_eq, DataFilePage.size_append, DataFilePage.size_cons] at hf
  simp only [List.length_append, List.length_cons] at hi
  rw [FreeSpaceEntry.addFreeSpace_eq (by omega) (by omega)]
  constructor
  · simp only [DataFilePage.slotAt_eq, DataFilePage.size_append]
    omega
  · simp only [List.length_append]
    omega

end Booked

/-- The two files agree: no entry promises more than its page has, and the entries of
pages that are not there yet are those of an empty page. -/
structure Pages (s : DataStore) (N M : Nat) (book : Nat → FreeSpaceEntry) (shelf : Nat → Nat × List DataFilePage.Rec)
    (lost : Nat → Nat) : Prop where
  map : MapFile s M book
  data : DataFile s N (Shelved shelf)
  booked : ∀ p, 1 ≤ p → Booked (book p) (shelf p) (lost p)
  beyond : ∀ p, N ≤ p → book p = .empty ∧ shelf p = (0, [])
  covers : N ≤ covered M + 1

section Pages
variable {book : Nat → FreeSpaceEntry} {shelf : Nat → Nat × List DataFilePage.Rec} {lost : Nat → Nat}

theorem Pages.frame (h : Pages s N M book shelf lost) (hd : ∀ p, s'.page (dataKey p) = s.page (dataKey p))
    (hm : ∀ i, s'.page (mapKey i) = s.page (mapKey i)) : Pages s' N M book shelf lost :=
  ⟨h.map.frame hm, h.data.frame hd, h.booked, h.beyond, h.covers⟩

theorem fits_empty {n : Nat} (hn : n ≤ DataFilePage.MAX_RECORD_SIZE) : FreeSpaceEntry.empty.fits n = true := by
  have hmax : DataFilePage.MAX_RECORD_SIZE = 4085 := rfl
  rw [FreeSpaceEntry.fits_iff]
  right
  show n + 5 ≤ 4090
  omega

/-- The page allocated is there, and its entry had room for the record. -/
theorem allocateDataPage_spec (h : Pages s N M book shelf lost) (hidle : Idle s) {n : Nat}
    (hn : n ≤ DataFilePage.MAX_RECORD_SIZE) :
    wp exec (allocateDataPage n) (fun p s' => 1 ≤ p ∧ p ≤ N ∧ (book p).fits n = true ∧
      (∀ x, s'.page (blobKey x) = s.page (blobKey x)) ∧ s'.member = s.member ∧ ∃ M', max N (p + 1) ≤ covered M' + 1 ∧
      MapFile s' M' (Function.update book p ((book p).reserve n)) ∧ DataFile s' (max N (p + 1)) (Shelved shelf)) s := by
  unfold allocateDataPage
  rw [wp_bind]
  have hempty : ∀ p, covered M < p → book p = .empty := fun p hp => (h.beyond p (by have := h.covers; omega)).1
  apply wp_conseq (wp_and_wlp (reserve_spec h.map hidle hempty) (reserve_held n))
  rintro p t ⟨⟨hp, hfirst, hcase, honly, M', hMM', hpM', -, hmap⟩, hheld⟩
  have hcovers := h.covers
  -- the entry of the first page that is not there fits
  have hN : p ≤ N := by
    by_contra hlt
    refine hfirst N h.data.pos (Nat.not_le.1 hlt) ?_ ?_
    · rcases hcase with ⟨hle, -⟩ | rfl
      · exact (Nat.not_le.1 hlt).le.trans hle
      · exact Nat.lt_succ_iff.1 (Nat.not_le.1 hlt)
    · rw [(h.beyond N le_rfl).1]
      exact fits_empty hn
  have hfits : (book p).fits n = true := by
    rcases hcase with ⟨-, hfits⟩ | rfl
    · exact hfits
    · rw [hempty _ (Nat.lt_succ_self _)]
      exact fits_empty hn
  rw [wp_bind]
  refine wp_conseq (obtain_spec (h.data.frame fun q => honly.1 _ fun i => by simp) (hheld.idle hidle) hp hN
    (shelved_init (h.beyond N le_rfl).2 _)) ?_
  rintro - s' ⟨hdata, hfile, -⟩
  refine (wp_pure _).2 ⟨hp, hN, hfits, fun x => ?_, hdata.2.trans honly.2, M', ?_, ?_, hfile⟩
  · rw [hdata.1 _ fun i => by simp, honly.1 _ fun i => by simp]
  · exact max_le (hcovers.trans (Nat.succ_le_succ (covered_mono hMM'))) (Nat.succ_le_succ hpM')
  · exact hmap.frame fun i => hdata.1 _ fun j => by simp

/-- A record goes to a page that has room for it. -/
theorem placeRecord_spec (h : Pages s N M book shelf lost) (hidle : Idle s) {record : List Byte} (b : Bool)
    (hkey : RECORD_KEY_SIZE ≤ record.length) (hn : record.length ≤ DataFilePage.MAX_RECORD_SIZE) :
    wp exec (placeRecord record b) (fun id s' => 1 ≤ id.pageID ∧
      id.slotArrayIndex ∉ DataFilePage.slots (shelf id.pageID).2 ∧
      (book id.pageID).fits record.length = true ∧
      (∀ x, s'.page (blobKey x) = s.page (blobKey x)) ∧ s'.member = s.member ∧ ∃ N' M',
      Pages s' N' M' (Function.update book id.pageID ((book id.pageID).reserve record.length))
        (Function.update shelf id.pageID (DataFilePage.grow (shelf id.pageID).1 (shelf id.pageID).2,
          ⟨id.slotArrayIndex, record, b⟩ :: (shelf id.pageID).2)) lost) s := by
  unfold placeRecord
  rw [wp_bind]
  apply wp_conseq (wp_and_wlp (allocateDataPage_spec h hidle hn) (allocateDataPage_held _))
  rintro p t ⟨⟨hp, hpN, hfits, hblobs, hmem, M', hcovers, hmap, hdata⟩, hpins, hlatch⟩
  obtain ⟨raw, hraw, hholds⟩ := hdata.page p hp (lt_of_lt_of_le (Nat.lt_succ_self p) (le_max_right N (p + 1)))
  have hbooked : Booked (book p) ((shelf p).1, (shelf p).2) (lost p) := h.booked p hp
  obtain ⟨i, raw', hinsert, hfresh, -, hholds'⟩ :=
    DataFilePage.insertRecord_holds hholds (b := b) hkey (hbooked.room hfits)
  simp only [wp_bind, wp_wLatch, wp_getDataPage, wp_demand, wp_setData, wp_wUnlatch, wp_unpinPage, wp_pure]
  refine ⟨by rw [hlatch]; exact hidle _, raw, by simp [pageAs, hraw, FilePage.asData], (i, raw'), hinsert,
    ⟨_, by simpa using hraw⟩, by simp, by simp [hpins], hp, hfresh, hfits, fun x => by simp [hblobs], hmem,
    max N (p + 1), M', ?_, ?_, ?_, ?_, hcovers⟩
  · exact hmap.frame fun i => by simp
  · exact hdata.setPage hp (lt_of_lt_of_le (Nat.lt_succ_self p) (le_max_right N (p + 1))) (by simp)
      (shelved_update.1 raw' hholds') shelved_update.2 fun q hq => by simp [hq]
  · intro q hq
    by_cases hqp : q = p
    · subst hqp
      simp only [Function.update_self]
      exact (hbooked.reserve (r := ⟨i, record, b⟩) hfits).2
    · simp only [Function.update_of_ne hqp]
      exact h.booked q hq
  · intro q hq
    have hqp : q ≠ p := fun h => by
      subst h
      exact absurd (le_max_right N (q + 1)) (Nat.not_le.2 (lt_of_le_of_lt hq (Nat.lt_succ_self q)))
    simp only [Function.update_of_ne hqp]
    exact h.beyond q ((le_max_left _ _).trans hq)

end Pages

end MisakiDB.DataAccessor
